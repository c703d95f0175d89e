import Egalito.Chunk.ChunkFind
import Egalito.Lib.Align
import Mathlib
/-!
# Functions that run into the next one

`pass/fallthrough.cpp`: a function whose last instruction is not the end of an
execution is connected to the function behind it by a jump in a block of its own.
-/

open Egalito.Lib Egalito.ChunkList Egalito.ChunkFind

namespace Egalito.FallThrough

/-! ## Functions -/

/-- The instruction ids that matter here; `other` stands for all that go on to the next instruction. -/
inductive InsnId
  | nop | call | lcall | jmp | ljmp | ret | retf | retfq | iret | iretd | iretq | sysret | sysexit
  | syscall | sysenter | int | int1 | int3 | ud2 | ud2b | hlt
  | other (id : Nat)
deriving DecidableEq, Repr

/-- A `NormalLink` goes to the function at an address. -/
inductive Link
  | unresolved (address : UInt64)
  | normal (function : UInt64)
deriving DecidableEq

inductive Semantic
  | returnInstruction
  | indirectCall
  | indirectJump
  | dataLinkedControlFlow
  | controlFlow (id : InsnId) (mnemonic : String) (link : Link)
  | isolated (assembly : Option InsnId)
  | literal
  | linked
  | breakInstruction
  | stackFrame
deriving DecidableEq

structure Instruction where
  size : UInt64
  semantic : Semantic
deriving DecidableEq

abbrev Block := List Instruction

/-- The bytes of some instructions. -/
def bytes (instructions : List Instruction) : UInt64 := (instructions.map (·.size)).sum

structure Function where
  address : UInt64
  blocks : List Block
deriving DecidableEq

namespace Function

def instructions (f : Function) : List Instruction := f.blocks.flatten

def getSize (f : Function) : UInt64 := bytes f.instructions

end Function

instance : SizedChild Function where
  getName _ := ""
  getAddress f := f.address
  getSize f := f.getSize

/-! ## The pass -/

structure Scan where
  falling : Bool
  nop : Nat

/-- One instruction of the last block; `none` is the failed assertion. -/
def scanInstruction (s : Scan) : Semantic → Option Scan
  | .returnInstruction => some { s with falling := false }
  | .indirectCall => some { s with falling := false }
  | .indirectJump => some { s with falling := false }
  | .dataLinkedControlFlow => some { s with falling := false }
  | .controlFlow _ mnemonic _ => some { s with falling := mnemonic ≠ "callq" ∧ mnemonic ≠ "jmp" }
  | .isolated (some id) =>
    match id with
    | .ud2 => some { s with falling := false }
    | .hlt => some { s with falling := false }
    | .call => some { s with falling := false }
    | .jmp => some { s with falling := false }
    | .syscall => some { s with falling := false }
    | .int3 => some { s with falling := false }
    | .nop => some { s with nop := s.nop + 1 }
    | _ => some { s with falling := true }
  | .isolated none => some { s with falling := true }
  | .literal => some { s with falling := false }
  | .linked => some { s with falling := true }
  | .breakInstruction => some { s with falling := false }
  | .stackFrame => none

/-- The `jmp` with a displacement of four bytes, as an external jump to the function. -/
def jump (target : UInt64) : Instruction := ⟨5, .controlFlow .jmp "jmp" (.normal target)⟩

/-- A block with the jump behind the last one. -/
def Function.connect (f : Function) (target : UInt64) : Function := { f with blocks := f.blocks ++ [[jump target]] }

/-- The address of the last instruction of the last block: its offsets in the block and in the function. -/
def Function.lastAddress (f : Function) (block : Block) : UInt64 :=
  f.address + (bytes f.blocks.dropLast.flatten + bytes block.dropLast)

def visit (list : List Function) (f : Function) : Option Function :=
  match f.blocks.getLast? with
  | none => some f
  | some block => do
    let scan ← block.foldlM (fun s i => scanInstruction s i.semantic) ⟨true, 0⟩
    if scan.falling then
      if scan.nop = block.length then return f
      let instr ← block.getLast?
      let targetAddress := f.lastAddress block + instr.size
      match (spatialFind list targetAddress).or (spatialFind list ((targetAddress + 15) &&& ~~~15)) with
      | some target => return f.connect target.address
      | none => return f
    else return f

/-! ## What the pass is for -/

/-- A return, unconditional jump, call, system call or trap. -/
def InsnId.ends : InsnId → Bool
  | .nop | .other _ => false
  | _ => true

def Semantic.ends : Semantic → Bool
  | .returnInstruction | .indirectCall | .indirectJump | .dataLinkedControlFlow | .breakInstruction => true
  | .controlFlow id _ _ => id = .jmp ∨ id = .call
  | .isolated (some id) => id.ends
  | .isolated none | .literal | .linked | .stackFrame => false

def Instruction.isNop (i : Instruction) : Bool := i.semantic = .isolated (some .nop)

def lastNonNop (instructions : List Instruction) : Option Instruction := (instructions.filter (!·.isNop)).getLast?

/-- An execution can run past the last instruction. -/
def Function.RunsPast (f : Function) : Prop :=
  f.instructions ≠ [] ∧ ∀ i, lastNonNop f.instructions = some i → i.semantic.ends = false

/-- A function that lies in the address space, below its last 16 bytes. -/
structure PlacedFunction extends Function where
  size_pos : ∀ i ∈ toFunction.instructions, 0 < i.size.toNat
  end_le : address.toNat + (toFunction.instructions.map (·.size.toNat)).sum + 16 ≤ 2 ^ 64

namespace PlacedFunction

variable (f : PlacedFunction)

def endAddress : Nat := f.address.toNat + (f.instructions.map (·.size.toNat)).sum

end PlacedFunction

def Starts (list : List Function) (address : Nat) : Prop := ∃ g ∈ list, g.address.toNat = address

/-- Another function starts at the end, or if none does, at the end rounded up to 16. -/
def FollowedBy (list : List Function) (f : PlacedFunction) (target : UInt64) : Prop :=
  Starts list target.toNat ∧ target ≠ f.address ∧
    (target.toNat = f.endAddress ∨ ¬ Starts list f.endAddress ∧ target.toNat = roundUp 16 f.endAddress)

/-- A function that runs past its end into another one is connected to it, every other function stays as it is, and
so does the result in a second run. -/
def Connects (list : List Function) (f : PlacedFunction) : Prop :=
  ∃ f', visit list f.toFunction = some f' ∧
    (f.RunsPast ∧ (∃ target, FollowedBy list f target) → ∃ target, FollowedBy list f target ∧ f' = f.connect target) ∧
    (¬ (f.RunsPast ∧ ∃ target, FollowedBy list f target) → f' = f.toFunction) ∧
    ∀ list' : List Function, list'.map (·.address) = list.map (·.address) → visit list' f' = some f'

/-- Semantics that the scan takes for the opposite: a direct jump or call with a prefix in its mnemonic, the ids of
returns, jumps, calls, system calls and traps that it does not ask for, and data. -/
def Semantic.Misread : Semantic → Prop
  | .controlFlow id mnemonic _ => ¬ (id = .jmp ∨ id = .call) ↔ (mnemonic = "callq" ∨ mnemonic = "jmp")
  | .isolated (some id) => id ∈ [.ret, .retf, .retfq, .iret, .iretd, .iretq, .sysret, .sysexit, .ljmp, .lcall,
      .sysenter, .int, .int1, .ud2b]
  | .literal => True
  | _ => False

/-- The last block is not only nops, and what ends it is not misread; or it is only nops and nothing runs past it. -/
def Function.LastBlockRead (f : Function) (block : Block) : Prop :=
  match lastNonNop block with
  | some i => ¬ i.semantic.Misread
  | none => ¬ f.RunsPast

/-! ## The scan -/

/-- What the scan makes of an instruction that is not a nop. -/
def Semantic.stops : Semantic → Bool
  | .returnInstruction | .indirectCall | .indirectJump | .dataLinkedControlFlow | .breakInstruction | .literal => true
  | .controlFlow _ mnemonic _ => mnemonic = "callq" ∨ mnemonic = "jmp"
  | .isolated (some id) => id ∈ [.ud2, .hlt, .call, .jmp, .syscall, .int3]
  | .isolated none | .linked | .stackFrame => false

theorem scanInstruction_eq (s : Scan) (i : Instruction) (h : i.semantic ≠ .stackFrame) :
    scanInstruction s i.semantic =
      some (if i.isNop then { s with nop := s.nop + 1 } else { s with falling := !i.semantic.stops }) := by
  unfold Instruction.isNop
  generalize i.semantic = semantic at h ⊢
  cases semantic with
  | stackFrame => exact absurd rfl h
  | isolated assembly =>
    cases assembly with
    | none => rfl
    | some id => cases id <;> simp [scanInstruction, Semantic.stops]
  | controlFlow id mnemonic link => simp [scanInstruction, Semantic.stops, Bool.decide_or]
  | _ => rfl

theorem scan_stackFrame {block : Block} (s : Scan) (h : ∃ i ∈ block, i.semantic = .stackFrame) :
    block.foldlM (fun s i => scanInstruction s i.semantic) s = none := by
  obtain ⟨i, hi, hs⟩ := h
  rw [← Option.not_isSome_iff_eq_none, Option.isSome_iff_exists]
  rintro ⟨s', hrun⟩
  obtain ⟨s₁, s₂, hstep⟩ := exists_step_of_foldlM hrun i hi
  rw [hs] at hstep
  cases hstep

theorem lastNonNop_concat (block : Block) (i : Instruction) :
    lastNonNop (block ++ [i]) = if i.isNop then lastNonNop block else some i := by
  unfold lastNonNop
  rw [List.filter_append]
  cases h : i.isNop <;> simp [h]

/-- Over a block the scan keeps what it made of the last instruction that is not a nop, and the number of nops. -/
theorem scan_eq (block : Block) (h : ∀ i ∈ block, i.semantic ≠ .stackFrame) :
    block.foldlM (fun s i => scanInstruction s i.semantic) ⟨true, 0⟩ =
      some ⟨(lastNonNop block).all fun i => !i.semantic.stops, block.countP (·.isNop)⟩ := by
  induction block using List.reverseRecOn with
  | nil => rfl
  | append_singleton block i ih =>
    rw [List.foldlM_append, ih fun j hj => h j (List.mem_append_left _ hj), lastNonNop_concat, List.countP_append]
    simp only [List.foldlM_cons, List.foldlM_nil, Option.bind_eq_bind, Option.bind_some,
      scanInstruction_eq _ i (h i (by simp))]
    cases hi : i.isNop <;> simp [hi]

theorem lastNonNop_eq_none_iff {block : Block} : lastNonNop block = none ↔ block.countP (·.isNop) = block.length := by
  unfold lastNonNop
  rw [List.getLast?_eq_none_iff, List.filter_eq_nil_iff, List.countP_eq_length]
  simp

theorem stops_eq_ends_iff {s : Semantic} (hnop : s ≠ .isolated (some .nop)) (h : s ≠ .stackFrame) :
    s.stops = s.ends ↔ ¬ s.Misread := by
  cases s with
  | stackFrame => exact absurd rfl h
  | isolated assembly =>
    cases assembly with
    | none => simp [Semantic.stops, Semantic.ends, Semantic.Misread]
    | some id => cases id <;> simp_all [Semantic.stops, Semantic.ends, Semantic.Misread, InsnId.ends]
  | controlFlow id mnemonic link =>
    simp only [Semantic.stops, Semantic.ends, Semantic.Misread, decide_eq_decide]
    tauto
  | _ => simp [Semantic.stops, Semantic.ends, Semantic.Misread]

/-! ## The function behind the end -/

section Successor

variable {list : List Function} {f : PlacedFunction} {block : Block} {target : UInt64}

theorem not_starts_iff : spatialFind list target = none ↔ ¬ Starts list target.toNat := by
  rw [ChunkFind.spatialFind_eq_none_iff, Starts]
  push Not
  exact forall₂_congr fun g _ => (not_congr UInt64.toNat_inj).symm

theorem toNat_bytes {instructions : List Instruction} (h : (instructions.map (·.size.toNat)).sum < 2 ^ 64) :
    (bytes instructions).toNat = (instructions.map (·.size.toNat)).sum := by
  unfold bytes
  induction instructions with
  | nil => rfl
  | cons i rest ih =>
    simp only [List.map_cons, List.sum_cons] at h ⊢
    rw [UInt64.toNat_add, ih (by omega), Nat.mod_eq_of_lt h]

theorem bytes_append (a b : List Instruction) : bytes (a ++ b) = bytes a + bytes b := by
  simp [bytes]

/-- Behind its last instruction the function ends. -/
theorem lastAddress_add {g : Function} {instr : Instruction} (hblock : g.blocks.getLast? = some block)
    (hinstr : block.getLast? = some instr) : g.lastAddress block + instr.size = g.address + g.getSize := by
  obtain ⟨front, hfront⟩ := List.getLast?_eq_some_iff.1 hblock
  obtain ⟨start, hstart⟩ := List.getLast?_eq_some_iff.1 hinstr
  have hsize : g.getSize = bytes front.flatten + (bytes start + instr.size) := by
    unfold Function.getSize Function.instructions
    rw [hfront, hstart, List.flatten_append, bytes_append]
    simp [bytes]
  rw [hsize, Function.lastAddress, hfront, hstart, List.dropLast_concat, List.dropLast_concat, UInt64.add_assoc,
    UInt64.add_assoc]

theorem toNat_end : (f.address + f.getSize).toNat = f.endAddress := by
  have hend := f.end_le
  have hsize := @toNat_bytes f.instructions (by omega)
  rw [UInt64.toNat_add, Function.getSize, hsize, PlacedFunction.endAddress, Nat.mod_eq_of_lt (by omega)]

theorem toNat_rounded : ((f.address + f.getSize + 15) &&& ~~~15).toNat = roundUp 16 f.endAddress := by
  have halign := @toNat_align 16 4 rfl (f.address + f.getSize)
  have hlt : roundUp 16 f.endAddress < 2 ^ 64 := by
    have := roundUp_lt_add (a := 16) (n := f.endAddress) (by decide)
    have := f.end_le
    unfold PlacedFunction.endAddress at *
    omega
  have hsub : f.address + f.getSize + 16 - 1 = f.address + f.getSize + 15 := by
    rw [UInt64.sub_eq_add_neg, UInt64.add_assoc]
    rfl
  rw [hsub, toNat_end] at halign
  rw [show (15 : UInt64) = 16 - 1 from rfl]
  refine Eq.trans ?_ (halign.trans ?_)
  · rfl
  · exact Nat.mod_eq_of_lt hlt

/-- The function that the pass finds. -/
def successor (list : List Function) (f : Function) : Option Function :=
  (spatialFind list (f.address + f.getSize)).or (spatialFind list ((f.address + f.getSize + 15) &&& ~~~15))

theorem ne_address (hne : f.instructions ≠ []) (h : f.endAddress ≤ target.toNat) : target ≠ f.address := by
  rintro rfl
  obtain ⟨i, hi⟩ := List.exists_mem_of_ne_nil _ hne
  have hpos := f.size_pos i hi
  have hle := List.single_le_sum (l := f.instructions.map (·.size.toNat)) (by simp) _ (List.mem_map_of_mem hi)
  unfold PlacedFunction.endAddress at h
  omega

theorem successor_some {g : Function} (hne : f.instructions ≠ []) (h : successor list f.toFunction = some g) :
    FollowedBy list f g.address := by
  unfold successor at h
  rcases Option.or_eq_some_iff.1 h with h | ⟨hnone, h⟩
  · obtain ⟨hmem, haddr⟩ := spatialFind_spec h
    have hend : g.address.toNat = f.endAddress := by rw [← toNat_end]; exact congrArg UInt64.toNat haddr
    exact ⟨⟨g, hmem, rfl⟩, ne_address hne hend.ge, .inl hend⟩
  · obtain ⟨hmem, haddr⟩ := spatialFind_spec h
    have hend : g.address.toNat = roundUp 16 f.endAddress := by rw [← toNat_rounded]; exact congrArg UInt64.toNat haddr
    rw [not_starts_iff, toNat_end] at hnone
    exact ⟨⟨g, hmem, rfl⟩, ne_address hne ((le_roundUp (by decide)).trans hend.ge), .inr ⟨hnone, hend⟩⟩

theorem successor_none (h : successor list f.toFunction = none) : ¬ FollowedBy list f target := by
  unfold successor at h
  obtain ⟨hend, hrounded⟩ := Option.or_eq_none_iff.1 h
  rw [not_starts_iff, toNat_end] at hend
  rw [not_starts_iff, toNat_rounded] at hrounded
  rintro ⟨hstarts, -, heq | ⟨-, heq⟩⟩
  · exact hend (heq ▸ hstarts)
  · exact hrounded (heq ▸ hstarts)

theorem successor_isSome_congr {list' : List Function} (h : list'.map (·.address) = list.map (·.address))
    (g : Function) : (successor list' g).isSome = (successor list g).isSome := by
  have hstarts : ∀ address, Starts list' address ↔ Starts list address := fun address => by
    have hmap : ∀ l : List Function, Starts l address ↔ address ∈ (l.map (·.address)).map UInt64.toNat := by
      simp [Starts]
    rw [hmap, hmap, h]
  have hfind : ∀ a : UInt64, (spatialFind list' a).isSome = (spatialFind list a).isSome := fun a => by
    have := (@not_starts_iff list' a).trans
      ((not_congr (hstarts _)).trans not_starts_iff.symm)
    cases h₁ : spatialFind list' a <;> cases h₂ : spatialFind list a <;> simp_all
  simp only [successor, Option.isSome_or, hfind]

end Successor

/-! ## A visit -/

section Visit

variable {list : List Function} {f : Function} {block : Block}

/-- A visit in terms of the last block: what it makes of its last instruction, and the function behind. -/
theorem visit_block (hblock : f.blocks.getLast? = some block) (h : ∀ i ∈ block, i.semantic ≠ .stackFrame) :
    visit list f = some (match lastNonNop block with
      | none => f
      | some i => if i.semantic.stops then f else (successor list f).elim f fun g => f.connect g.address) := by
  unfold visit
  rw [hblock]
  simp only [scan_eq block h, Option.bind_eq_bind, Option.bind_some]
  cases hlast : lastNonNop block with
  | none =>
    rw [lastNonNop_eq_none_iff] at hlast
    simp [hlast]
  | some i =>
    have hcount : ¬ block.countP (·.isNop) = block.length := by
      rw [← lastNonNop_eq_none_iff, hlast]
      simp
    obtain ⟨instr, hinstr⟩ : ∃ instr, block.getLast? = some instr := by
      cases hb : block.getLast? with
      | some instr => exact ⟨instr, rfl⟩
      | none =>
        rw [List.getLast?_eq_none_iff] at hb
        simp [hb, lastNonNop] at hlast
    cases hstops : i.semantic.stops with
    | true => simp [hstops]
    | false =>
      simp only [Option.all_some, hstops, Bool.not_false, if_true, if_neg hcount, hinstr, Option.bind_some,
        lastAddress_add hblock hinstr, Bool.false_eq_true, if_false]
      rw [← successor]
      cases successor list f <;> rfl

theorem visit_none (hblock : f.blocks.getLast? = none) : visit list f = some f := by
  unfold visit
  rw [hblock]

theorem visit_stackFrame (hblock : f.blocks.getLast? = some block) (h : ∃ i ∈ block, i.semantic = .stackFrame) :
    visit list f = none := by
  unfold visit
  rw [hblock]
  simp only [scan_stackFrame _ h]
  rfl

/-- Behind a jump nothing is connected. -/
theorem visit_connect (target : UInt64) : visit list (f.connect target) = some (f.connect target) := by
  have hblock : (f.connect target).blocks.getLast? = some [jump target] := by simp [Function.connect]
  rw [visit_block hblock (by simp [jump])]
  rfl

/-- The last instruction of a function that is not a nop is that of its last block, if there is one. -/
theorem lastNonNop_instructions (hblock : f.blocks.getLast? = some block) {i : Instruction}
    (h : lastNonNop block = some i) : lastNonNop f.instructions = some i := by
  obtain ⟨front, hfront⟩ := List.getLast?_eq_some_iff.1 hblock
  unfold lastNonNop Function.instructions at *
  rw [hfront, List.flatten_append, List.filter_append, List.getLast?_append]
  simp [h]

theorem runsPast_iff (hblock : f.blocks.getLast? = some block) {i : Instruction} (h : lastNonNop block = some i) :
    f.RunsPast ↔ i.semantic.ends = false := by
  have hlast := lastNonNop_instructions hblock h
  unfold Function.RunsPast
  constructor
  · exact fun hr => hr.2 i hlast
  · refine fun hends => ⟨?_, fun j hj => ?_⟩
    · intro hnil
      rw [hnil] at hlast
      cases hlast
    · rw [hlast] at hj
      cases hj
      exact hends

end Visit

/-- What the last instruction of a block is. -/
theorem lastNonNop_spec {block : Block} {i : Instruction} (h : lastNonNop block = some i) :
    i ∈ block ∧ i.semantic ≠ .isolated (some .nop) := by
  have hmem := List.mem_of_getLast? h
  rw [List.mem_filter] at hmem
  exact ⟨hmem.1, by simpa [Instruction.isNop] using hmem.2⟩

theorem connect_ne (f : Function) (target : UInt64) : f.connect target ≠ f := by
  intro h
  have := congrArg (·.blocks.length) h
  simp [Function.connect] at this

/-- The pass connects a function to the one behind it exactly when it runs into it, and only once, if and only if no
instruction of its last block is of a kind that the pass asserts away and, unless no function starts at its end or the
rounded end, the last block is read as it is: it is not only nops and the last of its instructions that is not a nop
is not misread, or it is only nops and nothing runs past it. -/
theorem connects_iff (list : List Function) (f : PlacedFunction) :
    Connects list f ↔ ∀ block, f.blocks.getLast? = some block →
      (∀ i ∈ block, i.semantic ≠ .stackFrame) ∧
        ((∃ target, FollowedBy list f target) → f.LastBlockRead block) := by
  cases hlast : f.blocks.getLast? with
  | none =>
    refine iff_of_true ⟨f.toFunction, visit_none hlast, ?_, fun _ => rfl, fun _ _ => visit_none hlast⟩ nofun
    rintro ⟨⟨hne, -⟩, -⟩
    rw [List.getLast?_eq_none_iff] at hlast
    exact absurd (by rw [Function.instructions, hlast]; rfl) hne
  | some block =>
    simp only [Option.some.injEq, forall_eq']
    by_cases hframe : ∀ i ∈ block, i.semantic ≠ .stackFrame
    swap
    · push Not at hframe
      refine iff_of_false ?_ fun h => ?_
      · rintro ⟨f', hvisit, -⟩
        rw [visit_stackFrame hlast hframe] at hvisit
        cases hvisit
      · obtain ⟨i, hi, hs⟩ := hframe
        exact h.1 i hi hs
    rw [and_iff_right hframe]
    have hvisit := fun list' => @visit_block list' f.toFunction block hlast hframe
    unfold Connects Function.LastBlockRead
    cases hblock : lastNonNop block with
    | none =>
      simp only [hblock] at hvisit ⊢
      constructor
      · rintro ⟨f', hf', hconnect, -, -⟩ hfollowed hruns
        rw [hvisit] at hf'
        cases hf'
        obtain ⟨target, -, heq⟩ := hconnect ⟨hruns, hfollowed⟩
        exact connect_ne _ _ heq.symm
      · intro h
        refine ⟨f.toFunction, hvisit list, fun ⟨hruns, hfollowed⟩ => absurd hruns (h hfollowed), fun _ => rfl, fun list' _ => hvisit list'⟩
    | some i =>
      simp only [hblock] at hvisit ⊢
      obtain ⟨hi, hnop⟩ := lastNonNop_spec hblock
      have hne : f.instructions ≠ [] := by
        intro hnil
        have := lastNonNop_instructions hlast hblock
        rw [hnil] at this
        cases this
      rw [runsPast_iff hlast hblock, ← stops_eq_ends_iff hnop (hframe i hi)]
      cases hsucc : successor list f.toFunction with
      | none =>
        -- nothing is found, and there is nothing to find
        have hnot : ¬ ∃ target, FollowedBy list f target := fun ⟨_, h⟩ => successor_none hsucc h
        refine iff_of_true ⟨f.toFunction, ?_, fun h => absurd h.2 hnot, fun _ => rfl, fun list' hlist' => ?_⟩
          fun h => absurd h hnot
        · rw [hvisit, hsucc]
          simp
        · have hnone : successor list' f.toFunction = none := by
            rw [← Option.not_isSome_iff_eq_none, successor_isSome_congr hlist', hsucc]
            simp
          rw [hvisit, hnone]
          simp
      | some g =>
        have hfollowed := successor_some hne hsucc
        have hexists : ∃ target, FollowedBy list f target := ⟨_, hfollowed⟩
        rw [hvisit, hsucc]
        simp only [Option.elim_some, hexists, and_true, forall_const, Option.some.injEq, exists_eq_left']
        cases hstops : i.semantic.stops <;> cases hends : i.semantic.ends
        · simp only [Bool.false_eq_true, if_false, forall_const, not_true_eq_false, false_imp_iff, true_and, iff_true]
          exact ⟨⟨_, hfollowed, rfl⟩, fun list' _ => visit_connect _⟩
        · simp [connect_ne]
        · simp only [if_true, forall_const, Bool.true_eq_false, iff_false, not_and]
          rintro ⟨target, -, heq⟩
          exact absurd heq.symm (connect_ne _ _)
        · simp only [if_true, Bool.true_eq_false, false_imp_iff, not_false_eq_true, forall_const, true_and, iff_true]
          intro list' _
          rw [hvisit]
          simp [hstops]

/-- A conditional jump, with nops behind it in a block of their own. -/
def branchAndNops : PlacedFunction where
  address := 0x1000
  blocks := [[⟨2, .controlFlow (.other 0) "je" (.unresolved 0x1000)⟩], [⟨14, .isolated (some .nop)⟩]]
  size_pos := by decide
  end_le := by decide

def nextFunction : Function := ⟨0x1010, [[⟨1, .returnInstruction⟩]]⟩

theorem branchAndNops_not_connected : ¬ Connects [branchAndNops.toFunction, nextFunction] branchAndNops := by
  rintro ⟨f', hvisit, hconnect, -⟩
  have hsame : visit [branchAndNops.toFunction, nextFunction] branchAndNops.toFunction = some branchAndNops.toFunction := by
    decide
  cases hvisit.symm.trans hsame
  have hfollowed : FollowedBy [branchAndNops.toFunction, nextFunction] branchAndNops 0x1010 :=
    ⟨⟨nextFunction, by simp, rfl⟩, by decide, .inl rfl⟩
  have hruns : branchAndNops.RunsPast := by
    refine ⟨by decide, fun i hi => ?_⟩
    cases hi
    rfl
  obtain ⟨target, -, heq⟩ := hconnect ⟨hruns, _, hfollowed⟩
  exact connect_ne _ _ heq.symm

end Egalito.FallThrough
