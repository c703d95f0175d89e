import Egalito.Mutator.Layout
/-!
# Promoting jumps

`pass/promotejumps.cpp`: a jump whose one-byte displacement does not reach its
target, or that leaves the function, gets the opcode that takes four bytes. A
promotion moves the code behind it, so the function is gone through until
nothing changes.
-/

open Egalito.Lib Egalito.Mutator

namespace Egalito.PromoteJumps

/-! ## Control flow instructions -/

/-- The instruction ids that `getWiderOpcode` knows. -/
inductive InsnId
  | jmp | ja | jae | jb | jbe | jg | jge | jl | jle | jno | jnp | jns | jo | jp | js | je | jne
  | jcxz | jrcxz | jecxz
  | other (id : Nat)
deriving DecidableEq, Repr

/-- What a link refers to: a place in a chunk of the function, the distance from one chunk of it to the end of another,
or an address that the pass does not move. -/
inductive Target
  | chunk (c : ChunkId) (offset : Mutator.Address)
  | distance (base target : ChunkId)
  | address (address : Mutator.Address)
deriving DecidableEq, Repr

structure Link where
  target : Target
  isRIPRelative : Bool
  isExternalJump : Bool
deriving DecidableEq, Repr

structure ControlFlowInstruction where
  id : InsnId
  source : ChunkId
  opcode : List (BitVec 8)
  displacementSize : Nat
  link : Option Link
deriving DecidableEq, Repr

def ControlFlowInstruction.getSize (v : ControlFlowInstruction) : Nat := v.opcode.length + v.displacementSize

/-- The chunks, and the semantics of the instructions that are control flow. -/
structure Program extends State where
  semantic : ChunkId → Option ControlFlowInstruction

namespace Program

variable (p : Program) (f : ChunkId)

/-- The instructions of a function, in order. -/
def instructions : List ChunkId := (p.children f).flatMap p.children

/-- The size of an instruction is that of its semantic. -/
def setSemantic (i : ChunkId) (v : ControlFlowInstruction) : Program :=
  { p with
    semantic := Function.update p.semantic i (some v)
    size := Function.update p.size i v.getSize }

def short (i : ChunkId) : Bool := (p.semantic i).any fun v => v.displacementSize = 1

end Program

/-! ## Displacements -/

section Displacements

variable (env : Env) (h : Heap)

/-- `Link::getTargetAddress`. -/
def getTargetAddress : Target → PosM Mutator.Address
  | .chunk c offset => do
    let address ← getAddress h env.fuel c
    return address + offset
  | .distance base target => do
    let targetAddress ← getAddress h env.fuel target
    let baseAddress ← getAddress h env.fuel base
    return targetAddress + BitVec.ofNat 64 (h.size target) - baseAddress
  | .address address => return address

/-- `ControlFlowInstructionBase::calculateDisplacement`. -/
def ControlFlowInstruction.calculateDisplacement (v : ControlFlowInstruction) (link : Link) : PosM Mutator.Address := do
  let disp ← getTargetAddress env h link.target
  if link.isRIPRelative then
    let address ← getAddress h env.fuel v.source
    return disp - (address + BitVec.ofNat 64 v.getSize)
  else return disp

/-- `fitsIn` for a narrow type of `w` bits. -/
def fitsIn (w : Nat) (address : Mutator.Address) : Bool := (address.setWidth w).signExtend 64 == address

end Displacements

/-! ## The pass -/

/-- Why the pass does not return: a failed assertion, or the call of `std::abort`. -/
inductive Abort
  | assertion
  | tooLarge (disp : Mutator.Address)
deriving DecidableEq, Repr

def orAssert {α : Type} : Option α → Except Abort α
  | some a => .ok a
  | none => .error .assertion

/-- The opcode for four bytes of displacement; nothing where there is none. -/
def getWiderOpcode : InsnId → List (BitVec 8)
  | .jmp => [0xe9]
  | .ja => [0x0f, 0x87]
  | .jae => [0x0f, 0x83]
  | .jb => [0x0f, 0x82]
  | .jbe => [0x0f, 0x86]
  | .jg => [0x0f, 0x8f]
  | .jge => [0x0f, 0x8d]
  | .jl => [0x0f, 0x8c]
  | .jle => [0x0f, 0x8e]
  | .jno => [0x0f, 0x81]
  | .jnp => [0x0f, 0x8b]
  | .jns => [0x0f, 0x89]
  | .jo => [0x0f, 0x80]
  | .jp => [0x0f, 0x8a]
  | .js => [0x0f, 0x88]
  | .je => [0x0f, 0x84]
  | .jne => [0x0f, 0x85]
  | .jcxz | .jrcxz | .jecxz | .other _ => []

section Pass

variable (env : Env)

def ControlFlowInstruction.widened (v : ControlFlowInstruction) : ControlFlowInstruction :=
  { v with opcode := getWiderOpcode v.id, displacementSize := 4 }

/-- `promote`, with the destructor of its mutator. -/
def promote (i : ChunkId) (v : ControlFlowInstruction) (p : Program) : Option Program := do
  let p := p.setSemantic i v.widened
  let parent ← p.parent i
  let s ← ChunkMutator.modifiedChildSize env parent i (v.widened.getSize - v.getSize) p.toState
  let s ← (Step.destroy parent).run env s
  return { p with toState := s }

/-- `visit(Instruction *)`; the flag says whether something has been promoted. -/
def visitInstruction (state : Program × Bool) (i : ChunkId) : Except Abort (Program × Bool) :=
  let (p, changed) := state
  match p.semantic i with
  | none => .ok (p, changed)
  | some v =>
    match v.link with
    | none => .ok (p, changed)
    | some link => do
      let (disp, pos) ← orAssert (v.calculateDisplacement env p.toHeap link p.pos)
      let p : Program := { p with pos := pos }
      let (p, changed) ←
        if v.displacementSize = 1 then
          if !fitsIn 8 disp then (orAssert (promote env i v p)).map (·, true)
          else if link.isExternalJump then (orAssert (promote env i v p)).map (·, true)
          else .ok (p, changed)
        else .ok (p, changed)
      if !fitsIn 32 disp then .error (.tooLarge disp) else .ok (p, changed)

/-- One pass over the function; a promotion leaves the lists of children as they are. -/
def recurse (f : ChunkId) (p : Program) : Except Abort (Program × Bool) :=
  (p.instructions f).foldlM (visitInstruction env) (p, false)

/-- `visit(Function *)`; `none` when it has not come to its end in so many passes. -/
def visit (f : ChunkId) : Nat → Program → Option (Except Abort Program)
  | 0, _ => none
  | fuel + 1, p =>
    match recurse env f p with
    | .error abort => some (.error abort)
    | .ok (p, changed) => if changed then visit f fuel p else some (.ok p)

end Pass

/-! ## What the pass finds -/

/-- A chunk of the function. -/
def Inside (t : Tree) (f c : ChunkId) : Prop := c = f ∨ c ∈ t.children f ∨ ∃ b ∈ t.children f, c ∈ t.children b

def Target.Inside (t : Tree) (f : ChunkId) : Target → Prop
  | .chunk c _ => PromoteJumps.Inside t f c
  | .distance base target => PromoteJumps.Inside t f base ∧ PromoteJumps.Inside t f target
  | .address _ => True

/-- A function at `base`: an instruction has the size of its semantic, which knows the instruction as its source. -/
structure Proper (p : Program) (f : ChunkId) (base : Mutator.Address) : Prop where
  positioned : p.Positioned f base
  size : ∀ i ∈ p.instructions f, ∀ v ∈ p.semantic i, p.size i = v.getSize
  source : ∀ i ∈ p.instructions f, ∀ v ∈ p.semantic i, v.source = i
  target : ∀ i ∈ p.instructions f, ∀ v ∈ p.semantic i, ∀ link ∈ v.link, link.target.Inside p.toTree f

/-- The address that a link refers to, when the code that reads it returns. -/
def Program.targetAddress (env : Env) (p : Program) (target : Target) : Option Mutator.Address :=
  (getTargetAddress env p.toHeap target p.pos).map Prod.fst

/-- The displacement of the instruction `i` to what `link` refers to: from behind the instruction if it is relative. -/
def Program.displacement (env : Env) (p : Program) (i : ChunkId) (link : Link) : Option Mutator.Address := do
  let target ← p.targetAddress env link.target
  let address ← p.address env i
  return if link.isRIPRelative then target - (address + BitVec.ofNat 64 (p.size i)) else target

/-- Where the jump is short, it stays in the function and reaches its target. -/
def Settled (env : Env) (p : Program) (i : ChunkId) : Prop :=
  ∀ v ∈ p.semantic i, ∀ link ∈ v.link, v.displacementSize = 1 →
    link.isExternalJump = false ∧ ∃ d, p.displacement env i link = some d ∧ -128 ≤ d.toInt ∧ d.toInt ≤ 127

theorem fitsIn_iff {w : Nat} (hw : 0 < w) (hle : w ≤ 64) {a : Mutator.Address} :
    fitsIn w a = true ↔ -2 ^ (w - 1) ≤ a.toInt ∧ a.toInt < 2 ^ (w - 1) := by
  have hpow : (2 : Int) ^ w = 2 * 2 ^ (w - 1) := by
    obtain ⟨k, rfl⟩ := Nat.exists_eq_add_of_le' hw
    rw [Nat.add_sub_cancel, pow_succ, mul_comm]
  have hdvd : (2 : Int) ^ w ∣ 2 ^ 64 := pow_dvd_pow 2 hle
  rw [fitsIn, beq_iff_eq, ← BitVec.toInt_inj, BitVec.toInt_signExtend_of_le hle, BitVec.toInt_setWidth]
  have hcast : ((2 ^ w : Nat) : Int) = 2 ^ w := by norm_cast
  have hmod : Int.bmod (a.toNat : Int) (2 ^ w) = Int.bmod a.toInt (2 ^ w) := by
    rw [BitVec.toInt_eq_toNat_bmod]
    exact (Int.bmod_bmod_of_dvd (by exact_mod_cast hdvd)).symm
  rw [hmod]
  constructor
  · intro h
    have hlt := Int.bmod_lt (x := a.toInt) (m := 2 ^ w) (by positivity)
    have hge := Int.le_bmod (x := a.toInt) (m := 2 ^ w) (by positivity)
    rw [hcast] at hlt hge
    omega
  · rintro ⟨hge, hlt⟩
    exact Int.bmod_eq_of_le (by rw [hcast]; omega) (by rw [hcast]; omega)

section Reads

variable {env : Env} {f i c : ChunkId} {p : Program} {v : ControlFlowInstruction} {link : Link} {base : Mutator.Address}
  (hp : Proper p f base) (hfuel : 3 ≤ env.fuel)

theorem mem_instructions : i ∈ p.instructions f ↔ ∃ b ∈ p.children f, i ∈ p.children b := List.mem_flatMap

include hp hfuel

theorem Proper.hasAddress (hc : Inside p.toTree f c) : ∃ w, HasAddress p.toHeap p.pos c env.fuel w := by
  have howned := hp.positioned.measured.owned
  have hall : ∀ {d}, (d = f ∨ d ∈ p.children f) → (∃ w, HasAddress p.toHeap p.pos d env.fuel w) ∧
      ∀ y ∈ p.children d, ∃ w, HasAddress p.toHeap p.pos y env.fuel w := fun hd =>
    hp.positioned.hasAddress hfuel hd rfl (fun _ _ _ _ => rfl) fun _ _ hy => howned.parent hy
  rcases hc with rfl | hc | ⟨b, hb, hc⟩
  · exact (hall (.inl rfl)).1
  · exact (hall (.inr hc)).1
  · exact (hall (.inr hb)).2 c hc

/-- The target of a link is read without a change of the positions. -/
theorem Proper.getTargetAddress {t : Target} (ht : t.Inside p.toTree f) :
    ∃ w, getTargetAddress env p.toHeap t p.pos = some (w, p.pos) := by
  cases t with
  | chunk c offset =>
    obtain ⟨w, hw⟩ := hp.hasAddress hfuel ht
    exact ⟨w + offset, run_bind (hw env.fuel le_rfl)⟩
  | distance b c =>
    obtain ⟨wb, hb⟩ := hp.hasAddress hfuel ht.1
    obtain ⟨wc, hc⟩ := hp.hasAddress hfuel ht.2
    refine ⟨wc + BitVec.ofNat 64 (p.size c) - wb, ?_⟩
    exact (run_bind (hc env.fuel le_rfl)).trans (run_bind (hb env.fuel le_rfl))
  | address a => exact ⟨a, rfl⟩

/-- The displacement is read without a change of the positions. -/
theorem Proper.calculateDisplacement (hi : i ∈ p.instructions f) (hv : v ∈ p.semantic i) (hlink : link ∈ v.link) :
    ∃ d, v.calculateDisplacement env p.toHeap link p.pos = some (d, p.pos) ∧ p.displacement env i link = some d := by
  obtain ⟨t, ht⟩ := hp.getTargetAddress hfuel (hp.target i hi v hv link hlink)
  obtain ⟨w, hw⟩ := hp.hasAddress hfuel (.inr (.inr (mem_instructions.1 hi)))
  have htarget : p.targetAddress env link.target = some t := by
    rw [Program.targetAddress, ht]
    rfl
  refine ⟨if link.isRIPRelative then t - (w + BitVec.ofNat 64 (p.size i)) else t, ?_, ?_⟩
  · unfold ControlFlowInstruction.calculateDisplacement
    rw [run_bind ht, hp.source i hi v hv, hp.size i hi v hv]
    split_ifs
    · exact run_bind (hw env.fuel le_rfl)
    · rfl
  · rw [Program.displacement, htarget, hw.address le_rfl]
    rfl

end Reads

/-! ## One promotion -/

section Resize

variable {h h' : Heap} {f b i : ChunkId}

theorem sum_resize {l : List ChunkId} (hi : i ∈ l) (hnodup : l.Nodup) (hsame : ∀ y ∈ l, y ≠ i → h'.size y = h.size y) :
    h'.sum l + h.size i = h.sum l + h'.size i := by
  obtain ⟨l₁, l₂, rfl⟩ := List.append_of_mem hi
  rw [List.nodup_middle, List.nodup_cons, List.mem_append, not_or] at hnodup
  have h₁ : h'.sum l₁ = h.sum l₁ := Heap.sum_congr fun y hy =>
    hsame y (by simp [hy]) fun he : y = i => hnodup.1.1 (he ▸ hy)
  have h₂ : h'.sum l₂ = h.sum l₂ := Heap.sum_congr fun y hy =>
    hsame y (by simp [hy]) fun he : y = i => hnodup.1.2 (he ▸ hy)
  simp only [Heap.sum_append, Heap.sum_cons, h₁, h₂]
  omega

/-- The sizes stay exact when an instruction, its block and the function change theirs alike. -/
theorem measured_resize (hm : h.Measured f) (htree : h'.toTree = h.toTree) (hb : b ∈ h.children f)
    (hi : i ∈ h.children b) (hsame : ∀ y, y ≠ i → y ≠ b → y ≠ f → h'.size y = h.size y)
    (hadd : ∀ y, y = b ∨ y = f → h'.size y + h.size i = h.size y + h'.size i) : h'.Measured f := by
  have ho := hm.owned
  have hchildren : h'.children = h.children := congrArg Tree.children htree
  have hbf := hm.ne_function hb
  -- a block is not an instruction, and an instruction is in one block only
  have hlevel : ∀ {c y}, c ∈ h.children f → y ∈ h.children c → y ∉ h.children f := fun hc hy hyf =>
    hm.ne_function hc (ho.unique hy hyf)
  have hblock : h'.size b = h'.sum (h.children b) := by
    have hsum := sum_resize hi (ho.nodup b) fun y hy hyi =>
      hsame y hyi (fun he => hlevel hb hy (he ▸ hb)) (hm.ne_function hy)
    have := hadd b (.inl rfl)
    have := hm.block b hb
    omega
  refine ⟨?_, ?_, ?_, ?_, ?_⟩
  · rw [htree]
    exact ho
  · rw [htree]
    exact hm.kind
  · rw [htree]
    exact hm.parent
  · intro c hc
    rw [hchildren] at hc ⊢
    rcases eq_or_ne c b with rfl | hcb
    · exact hblock
    · have hci : c ≠ i := fun he => hlevel hb hi (he ▸ hc)
      rw [hsame c hci hcb (hm.ne_function hc), hm.block c hc]
      refine (Heap.sum_congr fun y hy => hsame y ?_ ?_ (hm.ne_function hy)).symm
      · exact fun he => hcb (ho.unique hy (he ▸ hi))
      · exact fun he => hlevel hc hy (he ▸ hb)
  · rw [hchildren]
    have hsum := sum_resize hb (ho.nodup f) fun y hy hyb =>
      hsame y (fun he => hlevel hb hi (he ▸ hy)) hyb (hm.ne_function hy)
    have := hadd f (.inr rfl)
    have := hadd b (.inl rfl)
    have := hm.function
    omega

end Resize

section Promote

variable {env : Env} {f b i : ChunkId} {s : State} {p p' : Program} {v : ControlFlowInstruction} {base : Mutator.Address}
  (hmode : env.mode = .offset)
include hmode

/-- The sizes of a block and of its function are adjusted, unless one of them would become too large. -/
theorem modifiedChildSize_spec (hanc : s.ancestors b = [b, f]) (hbf : b ≠ f) {k : Int}
    (hb : 0 ≤ s.size b + k) (hle : s.size b ≤ s.size f) :
    (ChunkMutator.modifiedChildSize env b i k s = none ∧ 2 ^ 63 ≤ s.size f + k) ∨
    ∃ s', ChunkMutator.modifiedChildSize env b i k s = some s' ∧ s'.toTree = s.toTree ∧ s'.pos = s.pos ∧
      (∀ y, y ≠ b → y ≠ f → s'.size y = s.size y) ∧ (∀ y, y = b ∨ y = f → (s'.size y : Int) = s.size y + k) ∧
      s'.size f < 2 ^ 63 := by
  unfold ChunkMutator.modifiedChildSize
  rw [hanc]
  by_cases hroom : s.size f + k < 2 ^ 63
  · have h₁ : s.addToSize b k = some (s.setSize b (s.size b + k).toNat) := if_pos ⟨hb, by omega⟩
    have hsize : (s.setSize b (s.size b + k).toNat).size f = s.size f := Function.update_of_ne hbf.symm ..
    have h₂ : (s.setSize b (s.size b + k).toNat).addToSize f k =
        some ((s.setSize b (s.size b + k).toNat).setSize f (s.size f + k).toNat) := by
      unfold State.addToSize
      rw [hsize]
      exact if_pos ⟨by omega, hroom⟩
    refine .inr ⟨(s.setSize b (s.size b + k).toNat).setSize f (s.size f + k).toNat, ?_, rfl, rfl, ?_, ?_, ?_⟩
    · simp only [List.foldlM_cons, List.foldlM_nil, Option.bind_eq_bind, h₁, h₂, Option.bind_some, Option.pure_def]
      exact updatePos_eq (updateGenerationCounts_offset hmode i)
    · intro y hyb hyf
      simp [State.setSize, hyb, hyf]
    · rintro y (rfl | rfl)
      · simp only [State.setSize, Function.update_of_ne hbf, Function.update_self]
        omega
      · simp only [State.setSize, Function.update_self]
        omega
    · simp only [State.setSize, Function.update_self]
      omega
  · refine .inl ⟨?_, by omega⟩
    by_cases hbroom : s.size b + k < 2 ^ 63
    · have h₁ : s.addToSize b k = some (s.setSize b (s.size b + k).toNat) := if_pos ⟨hb, hbroom⟩
      have hsize : (s.setSize b (s.size b + k).toNat).size f = s.size f := Function.update_of_ne hbf.symm ..
      have h₂ : (s.setSize b (s.size b + k).toNat).addToSize f k = none := by
        unfold State.addToSize
        rw [hsize]
        exact if_neg fun h => hroom h.2
      simp only [List.foldlM_cons, Option.bind_eq_bind, h₁, h₂, Option.bind_some, Option.bind_none]
    · have h₁ : s.addToSize b k = none := if_neg fun h => hbroom h.2
      simp only [List.foldlM_cons, Option.bind_eq_bind, h₁, Option.bind_none]

/-- What a promotion does, unless the function would become too large: the function is laid out again. -/
theorem promote_spec (hfuel : 3 ≤ env.fuel) (hp : Proper p f base) (hi : i ∈ p.instructions f)
    (hv : v ∈ p.semantic i) :
    (promote env i v p = none ∧ 2 ^ 63 ≤ p.size f + 6) ∨
    ∃ p', promote env i v p = some p' ∧ Proper p' f base ∧ p'.toTree = p.toTree ∧
      p'.semantic = Function.update p.semantic i (some v.widened) := by
  obtain ⟨b, hb, hib⟩ := mem_instructions.1 hi
  have hm := hp.positioned.measured
  have ho := hm.owned
  have hlevel : ∀ {c y}, c ∈ p.children f → y ∈ p.children c → y ∉ p.children f := fun hc hy hyf =>
    hm.ne_function hc (ho.unique hy hyf)
  have hbf := hm.ne_function hb
  have hif := hm.ne_function hib
  have hib' : i ≠ b := fun he => hlevel hb hib (he ▸ hb)
  have hsize := hp.size i hi v hv
  have hwidened : v.widened.getSize ≤ 6 := by
    simp only [ControlFlowInstruction.getSize, ControlFlowInstruction.widened]
    cases v.id <;> simp [getWiderOpcode]
  have hle : p.size i ≤ p.size b := (hm.block b hb).symm ▸ Heap.size_le_sum hib
  have hle' : p.size b ≤ p.size f := hm.function.symm ▸ Heap.size_le_sum hb
  -- the state in which the sizes of the parents are adjusted
  have hq : (p.setSemantic i v.widened).size = Function.update p.size i v.widened.getSize := rfl
  have hqb : (p.setSemantic i v.widened).size b = p.size b := Function.update_of_ne hib'.symm ..
  have hqf : (p.setSemantic i v.widened).size f = p.size f := Function.update_of_ne hif.symm ..
  have hparent : (p.setSemantic i v.widened).parent i = some b := ho.parent hib
  have hrun : promote env i v p = (do
      let s ← ChunkMutator.modifiedChildSize env b i (v.widened.getSize - v.getSize) (p.setSemantic i v.widened).toState
      let s ← (Step.destroy b).run env s
      return { p.setSemantic i v.widened with toState := s }) := by
    unfold promote
    simp only [hparent, Option.bind_eq_bind, Option.bind_some]
  rw [hrun]
  rcases modifiedChildSize_spec hmode (i := i) (s := (p.setSemantic i v.widened).toState) (b := b) (f := f)
      (hm.ancestors_block hb) hbf (k := v.widened.getSize - v.getSize) (by rw [hqb]; omega) (by rw [hqb, hqf]; exact hle')
    with ⟨hnone, hlarge⟩ | ⟨s, hs, htree, hpos, hsame, hadd, hsmall⟩
  · rw [hqf] at hlarge
    refine .inl ⟨?_, by omega⟩
    simp only [hnone, Option.bind_eq_bind, Option.bind_none]
  · have hsi : s.size i = v.widened.getSize := by
      rw [hsame i hib' hif, hq, Function.update_self]
    have hmeasured : s.Measured f := by
      refine measured_resize hm htree hb hib (fun y hyi hyb hyf => ?_) fun y hy => ?_
      · rw [hsame y hyb hyf, hq, Function.update_of_ne hyi]
      · have hk := hadd y hy
        have hqy : (p.setSemantic i v.widened).size y = p.size y := by
          rcases hy with rfl | rfl
          · exact hqb
          · exact hqf
        rw [hqy] at hk
        omega
    have hpositioned : s.Positioned f base := by
      refine ⟨hmeasured, ?_, hsmall, ?_, ?_⟩
      · rw [htree]
        exact hp.positioned.threaded
      · rw [hpos]
        exact hp.positioned.function
      · rw [hpos, htree]
        exact hp.positioned.child
    have hreach : b = f ∨ s.parent b = some f ∧ ∀ q ∈ s.pos b, q.isAbsolute = false := by
      refine .inr ⟨?_, fun q hq => ?_⟩
      · rw [htree]
        exact ho.parent hb
      · obtain ⟨o, hob⟩ := hp.positioned.child f (.inl rfl) b hb
        rw [hpos, show (p.setSemantic i v.widened).pos b = some (.offset o) from hob, Option.mem_some_iff] at hq
        exact hq ▸ rfl
    obtain ⟨ps', hdestroy, hf, hblocks, hframe⟩ := destroy_laid hmode hfuel hpositioned hreach
    refine .inr ⟨{ p.setSemantic i v.widened with toState := { s with pos := ps' } }, ?_, ?_, htree, rfl⟩
    · simp only [hs, hdestroy, Option.bind_eq_bind, Option.bind_some, Option.pure_def]
    · have hinstructions : ∀ j, j ∈ (s.toTree.children f).flatMap s.toTree.children → j ∈ p.instructions f := by
        rw [show s.toTree = p.toTree from htree]
        exact fun j hj => hj
      -- the semantic of another instruction is the one it had
      have hsemantic : ∀ j w, w ∈ Function.update p.semantic i (some v.widened) j →
          j = i ∧ w = v.widened ∨ j ≠ i ∧ w ∈ p.semantic j := by
        intro j w hw
        rcases eq_or_ne j i with rfl | hji
        · rw [Function.update_self, Option.mem_some_iff] at hw
          exact .inl ⟨rfl, hw.symm⟩
        · rw [Function.update_of_ne hji] at hw
          exact .inr ⟨hji, hw⟩
      refine ⟨hpositioned.laid hf hblocks hframe, fun j hj w hw => ?_, fun j hj w hw => ?_, fun j hj w hw => ?_⟩
      · rcases hsemantic j w hw with ⟨rfl, rfl⟩ | ⟨hji, hw⟩
        · exact hsi
        · obtain ⟨c, hc, hjc⟩ := mem_instructions.1 (hinstructions j hj)
          change s.size j = w.getSize
          rw [hsame j (fun he => hlevel hc hjc (he ▸ hb)) (hm.ne_function hjc), hq, Function.update_of_ne hji]
          exact hp.size j (hinstructions j hj) w hw
      · rcases hsemantic j w hw with ⟨rfl, rfl⟩ | ⟨-, hw⟩
        · exact hp.source j hi v hv
        · exact hp.source j (hinstructions j hj) w hw
      · intro link hlink
        change link.target.Inside s.toTree f
        rw [show s.toTree = p.toTree from htree]
        rcases hsemantic j w hw with ⟨rfl, rfl⟩ | ⟨-, hw⟩
        · exact hp.target j hi v hv link hlink
        · exact hp.target j (hinstructions j hj) w hw link hlink

end Promote

/-! ## The whole pass -/

/-- A short jump of the function is promoted. -/
def Promotes (env : Env) (f : ChunkId) (p p' : Program) : Prop :=
  ∃ i ∈ p.instructions f, ∃ v ∈ p.semantic i, v.displacementSize = 1 ∧ promote env i v p = some p'

/-- What is wrong where the pass does not return: the function would get too large for its size, or the displacement
of a jump is not one of 32 bits. -/
def Abort.Reason (env : Env) (f : ChunkId) (p : Program) : Abort → Prop
  | .assertion => 2 ^ 63 ≤ p.size f + 6
  | .tooLarge disp => fitsIn 32 disp = false ∧ ∃ i ∈ p.instructions f, ∃ v ∈ p.semantic i, ∃ link ∈ v.link,
      p.displacement env i link = some disp

/-- What promotions keep of a function. -/
structure Kept (p p' : Program) : Prop where
  tree : p'.toTree = p.toTree
  link : ∀ i, (p'.semantic i).map ControlFlowInstruction.link = (p.semantic i).map ControlFlowInstruction.link
  opcode : ∀ i, p'.semantic i = p.semantic i ∨ ∃ v, p.semantic i = some v ∧ v.displacementSize = 1 ∧
    p'.semantic i = some v.widened

section Visit

variable {env : Env} {f i : ChunkId} {p p' : Program} {changed : Bool} {base : Mutator.Address}

theorem Kept.refl (p : Program) : Kept p p := ⟨rfl, fun _ => rfl, fun _ => .inl rfl⟩

theorem Kept.trans {p'' : Program} (h : Kept p p') (h' : Kept p' p'') : Kept p p'' := by
  refine ⟨h'.tree.trans h.tree, fun i => (h'.link i).trans (h.link i), fun i => ?_⟩
  rcases h.opcode i with heq | ⟨v, hv, hshort, heq⟩ <;> rcases h'.opcode i with heq' | ⟨w, hw, hshort', heq'⟩
  · exact .inl (heq'.trans heq)
  · exact .inr ⟨w, heq ▸ hw, hshort', heq'⟩
  · exact .inr ⟨v, hv, hshort, heq'.trans heq⟩
  · -- a jump that has been promoted is not short
    rw [heq, Option.some.injEq] at hw
    subst hw
    cases hshort'

variable (hmode : env.mode = .offset) (hfuel : 3 ≤ env.fuel)
include hmode hfuel

theorem Promotes.kept (hp : Proper p f base) (h : Promotes env f p p') : Proper p' f base ∧ Kept p p' ∧
    (p'.instructions f).countP p'.short < (p.instructions f).countP p.short := by
  obtain ⟨i, hi, v, hv, hshort, hrun⟩ := h
  rcases promote_spec hmode hfuel hp hi hv with ⟨hnone, -⟩ | ⟨q, hq, hproper, htree, hsemantic⟩
  · rw [hnone] at hrun
    cases hrun
  · rw [hq, Option.some.injEq] at hrun
    subst hrun
    have hvi : p.semantic i = some v := hv
    refine ⟨hproper, ⟨htree, fun j => ?_, fun j => ?_⟩, ?_⟩
    · rw [hsemantic]
      rcases eq_or_ne j i with rfl | hji
      · rw [Function.update_self, hvi]
        rfl
      · rw [Function.update_of_ne hji]
    · rw [hsemantic]
      rcases eq_or_ne j i with rfl | hji
      · exact .inr ⟨v, hvi, hshort, Function.update_self ..⟩
      · exact .inl (Function.update_of_ne hji ..)
    · have hinstructions : q.instructions f = p.instructions f := by
        unfold Program.instructions
        rw [htree]
      have hother : ∀ j, j ≠ i → q.short j = p.short j := by
        intro j hji
        unfold Program.short
        rw [hsemantic, Function.update_of_ne hji]
      have hself : q.short i = false := by
        unfold Program.short
        rw [hsemantic, Function.update_self]
        rfl
      have hbefore : p.short i = true := by
        unfold Program.short
        rw [hvi]
        simpa using hshort
      rw [hinstructions]
      obtain ⟨l, r, hsplit⟩ := List.append_of_mem hi
      have hmono : ∀ l : List ChunkId, l.countP q.short ≤ l.countP p.short := fun l =>
        List.countP_mono_left fun j _ hj => by
          rcases eq_or_ne j i with rfl | hji
          · exact hbefore
          · exact hother j hji ▸ hj
      have hl := hmono l
      have hr := hmono r
      simp only [hsplit, List.countP_append, List.countP_cons, hself, hbefore, if_true]
      simp only [Bool.false_eq_true, if_false]
      omega

/-- A visit leaves the program as it is, where the instruction is settled, or promotes it, or stops for a reason. -/
theorem visitInstruction_spec (hp : Proper p f base) (hi : i ∈ p.instructions f) :
    (visitInstruction env (p, changed) i = .ok (p, changed) ∧ Settled env p i) ∨
    (∃ p', visitInstruction env (p, changed) i = .ok (p', true) ∧ Promotes env f p p') ∨
    ∃ abort, visitInstruction env (p, changed) i = .error abort ∧ abort.Reason env f p := by
  cases hv : p.semantic i with
  | none =>
    refine .inl ⟨by simp only [visitInstruction, hv], ?_⟩
    intro v hv'
    rw [hv] at hv'
    cases hv'
  | some v =>
    cases hlink : v.link with
    | none =>
      refine .inl ⟨by simp only [visitInstruction, hv, hlink], ?_⟩
      intro v' hv' link hlink'
      rw [hv, Option.mem_some_iff] at hv'
      rw [← hv', hlink] at hlink'
      cases hlink'
    | some link =>
      obtain ⟨disp, hdisp, hread⟩ := hp.calculateDisplacement hfuel hi hv hlink
      have hreason : fitsIn 32 disp = false → (Abort.tooLarge disp).Reason env f p := fun hfits =>
        ⟨hfits, i, hi, v, hv, link, hlink, hread⟩
      have hrun : visitInstruction env (p, changed) i = (do
          let (p, changed) ←
            if v.displacementSize = 1 then
              if !fitsIn 8 disp then (orAssert (promote env i v p)).map (·, true)
              else if link.isExternalJump then (orAssert (promote env i v p)).map (·, true)
              else .ok (p, changed)
            else .ok (p, changed)
          if !fitsIn 32 disp then .error (.tooLarge disp) else .ok (p, changed)) := by
        simp only [visitInstruction, hv, hlink, hdisp]
        rfl
      by_cases hpromote : v.displacementSize = 1 ∧ (fitsIn 8 disp = false ∨ link.isExternalJump = true)
      · obtain ⟨hshort, hwhy⟩ := hpromote
        have hinner : visitInstruction env (p, changed) i = (do
            let (p, changed) ← (orAssert (promote env i v p)).map (·, true)
            if !fitsIn 32 disp then .error (.tooLarge disp) else .ok (p, changed)) := by
          rw [hrun, if_pos hshort]
          rcases hwhy with hfar | hexternal
          · rw [hfar]
            rfl
          · rw [if_pos hexternal, ite_self]
        rw [hinner]
        rcases promote_spec hmode hfuel hp hi hv with ⟨hnone, hlarge⟩ | ⟨p', hsome, -⟩
        · exact .inr (.inr ⟨.assertion, by rw [hnone]; rfl, hlarge⟩)
        · rw [hsome]
          cases hfits : fitsIn 32 disp with
          | true => exact .inr (.inl ⟨p', rfl, i, hi, v, hv, hshort, hsome⟩)
          | false => exact .inr (.inr ⟨.tooLarge disp, rfl, hreason hfits⟩)
      · have hinner : visitInstruction env (p, changed) i =
            if !fitsIn 32 disp then .error (.tooLarge disp) else .ok (p, changed) := by
          rw [hrun]
          by_cases hshort : v.displacementSize = 1
          · rw [not_and, not_or] at hpromote
            obtain ⟨hnear, hinternal⟩ := hpromote hshort
            rw [if_pos hshort, if_neg (by simpa using hnear), if_neg hinternal]
            rfl
          · rw [if_neg hshort]
            rfl
        rw [hinner]
        cases hfits : fitsIn 32 disp with
        | false => exact .inr (.inr ⟨.tooLarge disp, rfl, hreason hfits⟩)
        | true =>
          refine .inl ⟨rfl, fun v' hv' link' hlink' hshort => ?_⟩
          rw [hv, Option.mem_some_iff] at hv'
          subst hv'
          rw [hlink, Option.mem_some_iff] at hlink'
          subst hlink'
          rw [not_and, not_or] at hpromote
          obtain ⟨hnear, hinternal⟩ := hpromote hshort
          have hrange := (fitsIn_iff (w := 8) (by decide) (by decide)).1 (by simpa using hnear)
          norm_num at hrange
          exact ⟨by simpa using hinternal, disp, hread, hrange.1, by omega⟩

/-- Promotions one after another. -/
abbrev Promoted (env : Env) (f : ChunkId) : Program → Program → Prop := Relation.ReflTransGen (Promotes env f)

theorem Promoted.kept (hp : Proper p f base) (h : Promoted env f p p') : Proper p' f base ∧ Kept p p' := by
  induction h with
  | refl => exact ⟨hp, .refl p⟩
  | tail _ hstep ih =>
    obtain ⟨hproper, hkept, -⟩ := hstep.kept hmode hfuel ih.1
    exact ⟨hproper, ih.2.trans hkept⟩

/-- A pass over instructions of the function: each is settled, or there are fewer short jumps, or it stops for a reason. -/
theorem visitAll_spec {l : List ChunkId} (hp : Proper p f base) (hl : ∀ i ∈ l, i ∈ p.instructions f) :
    (l.foldlM (visitInstruction env) (p, changed) = .ok (p, changed) ∧ ∀ i ∈ l, Settled env p i) ∨
    (∃ p', l.foldlM (visitInstruction env) (p, changed) = .ok (p', true) ∧ Promoted env f p p' ∧
      (p'.instructions f).countP p'.short < (p.instructions f).countP p.short) ∨
    ∃ abort p', l.foldlM (visitInstruction env) (p, changed) = .error abort ∧ Promoted env f p p' ∧
      abort.Reason env f p' := by
  induction l generalizing p changed with
  | nil => exact .inl ⟨rfl, fun _ hi => absurd hi List.not_mem_nil⟩
  | cons i l ih =>
    rw [List.foldlM_cons]
    rw [List.forall_mem_cons] at hl
    rcases visitInstruction_spec hmode hfuel hp hl.1 with ⟨hrun, hsettled⟩ | ⟨p₁, hrun, hstep⟩ | ⟨abort, hrun, hreason⟩
    · rw [hrun]
      rcases ih hp hl.2 with ⟨hrest, hall⟩ | hchanged | habort
      · exact .inl ⟨hrest, List.forall_mem_cons.2 ⟨hsettled, hall⟩⟩
      · exact .inr (.inl hchanged)
      · exact .inr (.inr habort)
    · obtain ⟨hproper, hkept, hfewer⟩ := hstep.kept hmode hfuel hp
      have hinstructions : p₁.instructions f = p.instructions f := by
        unfold Program.instructions
        rw [hkept.tree]
      rw [hrun]
      rcases ih hproper (fun j hj => hinstructions ▸ hl.2 j hj) with ⟨hrest, -⟩ | ⟨p', hrest, hprom, hless⟩ |
        ⟨abort, p', hrest, hprom, hreason⟩
      · exact .inr (.inl ⟨p₁, hrest, .single hstep, hfewer⟩)
      · exact .inr (.inl ⟨p', hrest, .head hstep hprom, hless.trans hfewer⟩)
      · exact .inr (.inr ⟨abort, p', hrest, .head hstep hprom, hreason⟩)
    · rw [hrun]
      exact .inr (.inr ⟨abort, p, rfl, .refl, hreason⟩)

/-- The pass over a function comes to its end. Where it returns, every jump that is short stays in the function and
reaches its target, every jump has its link and, if promoted, the opcode of its kind, the instructions are in their
order, and the sizes are sums. Elsewhere it has stopped for a reason. -/
theorem visit_spec (hp : Proper p f base) : ∃ r, (∀ fuel, (p.instructions f).countP p.short < fuel →
      visit env f fuel p = some r) ∧
    match r with
    | .ok p' => Kept p p' ∧ (∀ i ∈ p'.instructions f, Settled env p' i) ∧
        (∀ b ∈ p'.children f, p'.size b = ((p'.children b).map p'.size).sum) ∧
        p'.size f = ((p'.instructions f).map p'.size).sum ∧
        ∀ i ∈ p'.instructions f, ∀ v ∈ p'.semantic i, p'.size i = v.getSize
    | .error abort => ∃ p', Promoted env f p p' ∧ abort.Reason env f p' := by
  induction hn : (p.instructions f).countP p.short using Nat.strong_induction_on generalizing p with
  | _ n ih =>
    rcases @visitAll_spec env f p false base hmode hfuel _ hp (fun i hi => hi) with ⟨hrun, hall⟩ | ⟨p₁, hrun, hprom, hless⟩ |
      ⟨abort, p₁, hrun, hprom, hreason⟩
    · have hm := hp.positioned.measured
      refine ⟨.ok p, fun fuel hlt => ?_, .refl p, hall, hm.block, ?_, hp.size⟩
      · obtain ⟨k, rfl⟩ := Nat.exists_eq_add_of_le' (Nat.zero_lt_of_lt hlt)
        rw [visit, recurse, hrun]
        rfl
      · rw [hm.function]
        exact hm.sum_blocks fun b hb => hb
    · obtain ⟨hproper, hkept⟩ := hprom.kept hmode hfuel hp
      obtain ⟨r, hvisit, hr⟩ := ih _ (hn ▸ hless) hproper rfl
      refine ⟨r, fun fuel hlt => ?_, ?_⟩
      · obtain ⟨k, rfl⟩ := Nat.exists_eq_add_of_le' (Nat.zero_lt_of_lt hlt)
        rw [visit, recurse, hrun]
        exact hvisit k (by omega)
      · cases r with
        | ok p' => exact ⟨hkept.trans hr.1, hr.2⟩
        | error abort =>
          obtain ⟨p', hprom', hreason⟩ := hr
          exact ⟨p', hprom.trans hprom', hreason⟩
    · refine ⟨.error abort, fun fuel hlt => ?_, p₁, hprom, hreason⟩
      obtain ⟨k, rfl⟩ := Nat.exists_eq_add_of_le' (Nat.zero_lt_of_lt hlt)
      rw [visit, recurse, hrun]

end Visit

/-- A function of one short jump to an address too far away. -/
def farJump : Program where
  toState := sampleState
  semantic i := if i = 2 then some ⟨.jmp, 2, [0x3e, 0xf2, 0xeb], 1, some ⟨.address 0x2000, true, true⟩⟩ else none

theorem farJump_proper : Proper farJump 0 0x1000 := by
  have hi : ∀ {i}, i ∈ farJump.instructions 0 → i = 2 := fun hi => by
    simpa [Program.instructions, farJump, sampleState] using hi
  refine ⟨sampleState_positioned, ?_, ?_, ?_⟩ <;>
  · intro i hmem v hv
    obtain rfl := hi hmem
    obtain rfl : _ = v := Option.mem_some_iff.1 hv
    simp [farJump, sampleState, ControlFlowInstruction.getSize, Target.Inside]

theorem visit_farJump : ∃ p', visit sampleEnv 0 2 farJump = some (.ok p') ∧ Settled sampleEnv p' 2 := by
  have hmode : sampleEnv.mode = .offset := rfl
  obtain ⟨r, hrun, hr⟩ := visit_spec hmode (by decide) farJump_proper
  have hvisit := hrun 2 (by decide)
  have hok : (visit sampleEnv 0 2 farJump).any Except.isOk = true := by decide +kernel
  rw [hvisit] at hok
  cases r with
  | error abort => cases hok
  | ok p' =>
    obtain ⟨hkept, hsettled, -⟩ := hr
    refine ⟨p', hvisit, hsettled 2 ?_⟩
    unfold Program.instructions
    rw [hkept.tree]
    decide

end Egalito.PromoteJumps
