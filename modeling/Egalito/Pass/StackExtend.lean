import Egalito.Code.Weaving
/-!
# `StackExtendPass`

The epilogue instructions of `analysis/frametype.cpp`, and `extendStack` of
`pass/stackextend.cpp` for x86-64: what it puts in front of the first block and
of the epilogue instructions. `none` is an exception, or a function without blocks.
-/

open Egalito.Lib

namespace Egalito.Code.StackExtend

/-! ## `FrameType` -/

/-- The instructions that the constructor of `FrameType` takes for exits. -/
def isEpilogue : Semantic → Bool
  | .returnInstruction => true
  | .controlFlow mnemonic link => mnemonic ≠ .callq && match link with
    | .function _ | .plt => true
    | _ => false
  | .indirectJump _ described => !described
  | _ => false

def getEpilogueInstrs (b : Body) : List Instruction := b.code.filter (isEpilogue ·.2)

/-! ## The code -/

/-- `(extendSize >> s) & 0xff` -/
def byteAt (extendSize : Word) (s : Nat) : UInt8 := UInt8.ofBitVec ((extendSize >>> s).setWidth 8)

/-- The loop runs over the upper and the lower of 16 bits, and leaves out zeros. -/
def sizeBytes (extendSize : Word) : List UInt8 :=
  [byteAt extendSize 8, byteAt extendSize 0].filter (· ≠ 0)

def subBytes (extendSize : Word) : List UInt8 := [0x48, 0x83, 0xec] ++ sizeBytes extendSize

def addBytes (extendSize : Word) : List UInt8 := [0x48, 0x83, 0xc4] ++ sizeBytes extendSize

section

variable (standsAlone : UInt8 → Bool)

/-- `Disassemble::instruction` of these: four bytes are taken, and there must not be a second instruction. The
bytes that are one by themselves are those of the disassembler. -/
def instruction : List UInt8 → Option Semantic
  | [a, b, c, i] => some (ofBytes [a, b, c, i])
  | [a, b, c, i, rest] => if standsAlone rest then none else some (ofBytes [a, b, c, i])
  | _ => none

/-! ## The pass -/

/-- `ChunkMutator(firstB).prepend` -/
def prepend (b : Body) (s : Semantic) : Option Body :=
  match b.blocks with
  | [] => none
  | firstB :: blocks => some ⟨((b.nextId, s) :: firstB) :: blocks, b.nextId + 1⟩

def insertJumpTo (b : Body) (insPoint : Nat) (s : Semantic) : Body :=
  ⟨b.blocks.map (insertBeforeJumpTo insPoint (b.nextId, s)), b.nextId + 1⟩

/-- The insertion point moves on to the new object, which has the semantic of the old one. -/
def insertChain (b : Body) (insPoint : Nat) : List Semantic → Body
  | [] => b
  | s :: code => insertChain (insertJumpTo b insPoint s) b.nextId code

def extendStack (extendSize : Word) (saveList : List Register) (b : Body) : Option Body :=
  let epilogueInstrs := getEpilogueInstrs b
  if saveList ≠ [] then do
    let b ← saveList.foldlM (fun b r => prepend b (ofBytes (pushBytes r))) b
    return epilogueInstrs.foldl (fun b ins => insertChain b ins.1 (saveList.map fun r => ofBytes (popBytes r))) b
  else do
    let b ← prepend b (← instruction standsAlone (subBytes extendSize))
    -- it can be disassembled where the other could
    let add ← instruction standsAlone (addBytes extendSize)
    return epilogueInstrs.foldl (fun b ins => b.insertAll ins.1 [add] false) b

def visit (extendSize : Word) (saveList : List Register) (b : Body) : Option Body :=
  if extendSize ≠ 0 then extendStack standsAlone extendSize saveList b else some b

end

/-! ## Paths through an extended function

The pass weaves the prologue in at the top. With a save list the epilogue code is
at the labels of the epilogue instructions; without one it is in front of them,
where a jump to the instruction passes it by.
-/

variable {b : Body} {x : Instruction} {A B : List Instruction} {N : Nat} {ops : List Semantic}
  {t : List (Arrival × Instruction)} {saveList : List Register} {e : Word}

/-! ## What the paths should be -/

/-- How far `add` and `sub` move the stack pointer. -/
def Op.moves : Op → Option Word
  | .addStack imm => some imm
  | .subStack imm => some (-imm)
  | _ => none

/-- The changes of the stack pointer, or the pushes and pops, that the inserted code makes on a path. -/
def Balanced (extendSize : Word) (saveList : List Register) (ops : List Semantic) : Prop :=
  if saveList = [] then (ops.filterMap Semantic.op).filterMap Op.moves = [-extendSize, extendSize]
  else ops.filterMap Semantic.op = saveList.reverse.map .push ++ saveList.map .pop

/-- Whether the epilogue code is executed with this instruction. -/
def passes (saveList : List Register) (y : Arrival × Instruction) : Bool :=
  isEpilogue y.2.2 && (saveList ≠ [] || y.1 ≠ .jump)

/-- The size as the sign-extended byte that is in the instruction. -/
def Fits (extendSize : Word) : Prop := extendSize.toNat < 128 ∨ extendSize = -1

/-- Exactly one epilogue instruction is passed where its code is, and no jump goes to the function itself. -/
structure Regular (extendSize : Word) (saveList : List Register) (t : List (Arrival × Instruction)) : Prop where
  fits : saveList = [] → Fits extendSize
  once : ∀ y ∈ t.tail, y.1 ≠ .start
  exit : t.countP (passes saveList) = 1

/-! ## Marks on a path -/

theorem flatMap_mark {α β : Type} (q : α → Bool) (Q : List β) (u : List α) :
    u.flatMap (fun y => if q y then Q else []) = (List.replicate (u.countP q) Q).flatten := by
  induction u with
  | nil => rfl
  | cons y u ih =>
    rw [List.flatMap_cons, ih, List.countP_cons]
    by_cases hy : q y = true
    · rw [if_pos hy, if_pos hy, List.replicate_succ, List.flatten_cons]
    · rw [if_neg hy, if_neg hy, List.nil_append, Nat.add_zero]

/-- Marks of two kinds: they are one of the second kind exactly when there is one of those and none of the others. -/
theorem flatMap_marks_iff {α β : Type} (p q : α → Bool) {P Q : List β} (hP : ∃ s ∈ P, s ∉ Q) (hQ : Q ≠ []) (u : List α) :
    u.flatMap (fun y => (if p y then P else []) ++ if q y then Q else []) = Q ↔
      (∀ y ∈ u, p y = false) ∧ u.countP q = 1 := by
  have hone : ∀ n, (List.replicate n Q).flatten = Q ↔ n = 1 := by
    intro n
    constructor
    · intro h
      have hlength := congrArg List.length h
      rw [List.length_flatten, List.map_replicate, List.sum_replicate, smul_eq_mul] at hlength
      exact Nat.eq_of_mul_eq_mul_right (List.length_pos_iff.2 hQ) (hlength.trans (Nat.one_mul _).symm)
    · rintro rfl
      simp
  have hnone : (∀ y ∈ u, p y = false) →
      u.flatMap (fun y => (if p y then P else []) ++ if q y then Q else []) = (List.replicate (u.countP q) Q).flatten := by
    intro h
    rw [← flatMap_mark]
    refine List.flatMap_congr fun y hy => ?_
    rw [h y hy]
    rfl
  constructor
  · intro h
    have hp : ∀ y ∈ u, p y = false := by
      intro y hy
      by_contra hpy
      obtain ⟨s, hs, hsQ⟩ := hP
      refine hsQ (h ▸ List.mem_flatMap.2 ⟨y, hy, List.mem_append_left _ ?_⟩)
      rw [if_pos (by simpa using hpy)]
      exact hs
    exact ⟨hp, (hone _).1 ((hnone hp).symm.trans h)⟩
  · rintro ⟨hp, hq⟩
    rw [hnone hp]
    exact (hone _).2 hq

/-! ## The pass weaves -/

def extendWeave (sub add : Semantic) : Weave Nat Semantic where
  top := [sub]
  before := fun x => if isEpilogue x.2 then [add] else []
  atLabel := fun _ => []

def saveWeave (saveList : List Register) : Weave Nat Semantic where
  top := saveList.reverse.map fun r => ofBytes (pushBytes r)
  before := fun _ => []
  atLabel := fun x => if isEpilogue x.2 then saveList.map fun r => ofBytes (popBytes r) else []

/-- No object has an id that is still to be given. -/
structure Counted (N : Nat) (b : Body) : Prop where
  next : N ≤ b.nextId
  ids : ∀ y ∈ b.code, y.1 < b.nextId

theorem extend_edits (sub add : Semantic) (N : Nat) : Edits (extendWeave sub add) N (N ≤ ·.nextId)
    fun b x => if isEpilogue x.2 then b.insertAll x.1 [add] false else b := by
  rintro b ⟨p, s⟩ A B hcode hA hB hx hnext
  beta_reduce
  by_cases hepi : isEpilogue s = true
  · rw [if_pos hepi]
    refine ⟨hnext.trans (Nat.le_add_right _ _), b.newInstructions [add], [], p, piece_before ?_ rfl ?_, ?_⟩
    · rw [newInstructions_ops]
      exact (if_pos hepi).symm
    · exact fun y hy => hnext.trans (mem_newInstructions hy)
    · rw [code_insertAll, hcode]
      refine insertAllBefore_front hA hB fun y hy => ?_
      have := mem_newInstructions hy
      change p < N at hx
      omega
  · rw [if_neg hepi]
    exact ⟨hnext, [], [], p, piece_before (if_neg hepi).symm rfl (fun _ h => nomatch h), hcode⟩

theorem code_insertJumpTo (p : Nat) (s : Semantic) :
    (insertJumpTo b p s).code = insertBeforeJumpTo p (b.nextId, s) b.code :=
  flatten_insertBeforeJumpTo _

/-- The insertion point is always the object with the old semantic. -/
theorem insertChain_code (code : List Semantic) {p : Nat} {s : Semantic} (hcode : b.code = A ++ (p, s) :: B)
    (hA : ∀ y ∈ A, y.1 ≠ p) (hB : ∀ y ∈ B, y.1 ≠ p) (hids : ∀ y ∈ b.code, y.1 < b.nextId) :
    (insertChain b p code).code = A ++ (chain p s (b.newInstructions code) ++ B) ∧
      (insertChain b p code).nextId = b.nextId + code.length := by
  induction code generalizing b A p with
  | nil =>
    rw [insertChain, hcode]
    exact ⟨rfl, rfl⟩
  | cons c code ih =>
    have hcode' : (insertJumpTo b p c).code = (A ++ [(p, c)]) ++ (b.nextId, s) :: B := by
      rw [code_insertJumpTo, hcode, insertBeforeJumpTo_point hA hB]
      simp
    have hold : ∀ y : Instruction, y ∈ A ∨ y = (p, s) ∨ y ∈ B → y.1 < b.nextId := by
      intro y hy
      refine hids y ?_
      rw [hcode]
      simpa using hy
    have hp : p < b.nextId := hold (p, s) (.inr (.inl rfl))
    have hids' : ∀ y ∈ (insertJumpTo b p c).code, y.1 < (insertJumpTo b p c).nextId := by
      intro y hy
      change y.1 < b.nextId + 1
      rw [hcode'] at hy
      simp only [List.mem_append, List.mem_cons, List.not_mem_nil, or_false] at hy
      rcases hy with (hy | rfl) | rfl | hy
      · exact (hold y (.inl hy)).trans (Nat.lt_succ_self _)
      · exact hp.trans (Nat.lt_succ_self _)
      · exact Nat.lt_succ_self _
      · exact (hold y (.inr (.inr hy))).trans (Nat.lt_succ_self _)
    have hA' : ∀ y ∈ A ++ [(p, c)], y.1 ≠ b.nextId := by
      intro y hy
      rcases List.mem_append.1 hy with hy | hy
      · exact (hold y (.inl hy)).ne
      · rw [List.mem_singleton.1 hy]
        exact hp.ne
    obtain ⟨hchain, hnext⟩ := ih hcode' hA' (fun y hy => (hold y (.inr (.inr hy))).ne) hids'
    rw [insertChain]
    refine ⟨?_, ?_⟩
    · rw [hchain]
      simp [Body.newInstructions, insertJumpTo, List.range'_succ, chain]
    · rw [hnext]
      change b.nextId + 1 + code.length = b.nextId + (code.length + 1)
      omega

theorem save_edits (saveList : List Register) (N : Nat) : Edits (saveWeave saveList) N (Counted N)
    fun b x => if isEpilogue x.2 then insertChain b x.1 (saveList.map fun r => ofBytes (popBytes r)) else b := by
  rintro b ⟨p, s⟩ A B hcode hA hB hx hb
  beta_reduce
  by_cases hepi : isEpilogue s = true
  · rw [if_pos hepi]
    obtain ⟨hcode', hnext⟩ := insertChain_code (saveList.map fun r => ofBytes (popBytes r)) hcode hA hB hb.ids
    have hnew : ∀ y ∈ b.newInstructions (saveList.map fun r => ofBytes (popBytes r)), N ≤ y.1 :=
      fun y hy => hb.next.trans (mem_newInstructions hy)
    obtain ⟨back, l, hp, hchain⟩ : ∃ back l, Piece (saveWeave saveList) (N ≤ ·) (p, s) [] back l ∧
        chain p s (b.newInstructions (saveList.map fun r => ofBytes (popBytes r))) = back ++ [(l, s)] :=
      piece_chain rfl ((newInstructions_ops _).trans (if_pos hepi).symm) hnew
    refine ⟨⟨?_, ?_⟩, [], back, l, hp, ?_⟩
    · rw [hnext]
      exact hb.next.trans (Nat.le_add_right _ _)
    · intro y hy
      rw [hcode', List.mem_append, List.mem_append] at hy
      have hold : ∀ z ∈ b.code, z.1 < b.nextId + (saveList.map fun r => ofBytes (popBytes r)).length :=
        fun z hz => (hb.ids z hz).trans_le (Nat.le_add_right _ _)
      rw [hnext]
      rcases hy with hy | hy | hy
      · exact hold y (by rw [hcode]; exact List.mem_append_left _ hy)
      · rcases mem_chain hy with hy | ⟨z, hz, hzy⟩
        · rw [hy]
          exact hold (p, s) (by rw [hcode]; simp)
        · rw [← hzy]
          exact lt_of_mem_newInstructions hz
      · exact hold y (by rw [hcode]; simp [hy])
    · rw [hcode', hchain]
      simp
  · rw [if_neg hepi]
    exact ⟨hb, [], [], p, piece_before rfl (if_neg hepi) (fun _ h => nomatch h), hcode⟩

/-! ## The prologue -/

theorem prepend_code {s : Semantic} {b' : Body} (h : prepend b s = some b') :
    b'.code = (b.nextId, s) :: b.code ∧ b'.nextId = b.nextId + 1 ∧ b'.blocks ≠ [] := by
  unfold prepend at h
  cases hb : b.blocks with
  | nil => simp [hb] at h
  | cons firstB blocks =>
    simp only [hb, Option.some.injEq] at h
    subst h
    exact ⟨by simp [Body.code, hb], rfl, by simp⟩

theorem prepend_isSome (s : Semantic) (h : b.blocks ≠ []) : ∃ b', prepend b s = some b' := by
  unfold prepend
  cases hb : b.blocks with
  | nil => exact absurd hb h
  | cons firstB blocks => exact ⟨_, rfl⟩

theorem prependAll (code : List Semantic) (h : b.blocks ≠ []) : ∃ b' top, code.foldlM prepend b = some b' ∧
    b'.code = top ++ b.code ∧ top.map (·.2) = code.reverse ∧ b.nextId ≤ b'.nextId ∧
    ∀ y ∈ top, b.nextId ≤ y.1 ∧ y.1 < b'.nextId := by
  induction code generalizing b with
  | nil => exact ⟨b, [], rfl, rfl, rfl, le_refl _, fun _ h => nomatch h⟩
  | cons s code ih =>
    obtain ⟨b₁, h₁⟩ := prepend_isSome s h
    obtain ⟨hcode₁, hnext₁, hblocks₁⟩ := prepend_code h₁
    obtain ⟨b', top, hrun, hcode, hops, hle, hids⟩ := ih hblocks₁
    refine ⟨b', top ++ [(b.nextId, s)], ?_, ?_, ?_, ?_, fun y hy => ?_⟩
    · rw [List.foldlM_cons, h₁]
      exact hrun
    · rw [hcode, hcode₁]
      simp
    · simp [hops]
    · omega
    · rcases List.mem_append.1 hy with hy | hy
      · have := hids y hy
        omega
      · rw [List.mem_singleton.1 hy]
        change b.nextId ≤ b.nextId ∧ b.nextId < b'.nextId
        omega

/-! ## Runs -/

theorem epilogue_foldl (f : Body → Instruction → Body) (b' : Body) :
    (getEpilogueInstrs b).foldl f b' = b.code.foldl (fun b x => if isEpilogue x.2 then f b x else b) b' := by
  rw [getEpilogueInstrs, List.foldl_filter]

theorem saveWeave_inserted (saveList : List Register) : OnlyInserted (saveWeave saveList) := by
  have hmap : ∀ (l : List Register) (g : Register → List UInt8), ∀ s ∈ l.map (fun r => ofBytes (g r)), s.isInserted = true := by
    intro l g s hs
    obtain ⟨r, -, rfl⟩ := List.mem_map.1 hs
    rfl
  refine ⟨hmap _ _, fun _ _ hs => (nomatch hs), fun x s hs => ?_⟩
  change s ∈ (if isEpilogue x.2 = true then saveList.map fun r => ofBytes (popBytes r) else []) at hs
  split_ifs at hs
  · exact hmap _ _ s hs
  · cases hs

theorem extendWeave_inserted {sub add : Semantic} (hsub : sub.isInserted = true) (hadd : add.isInserted = true) :
    OnlyInserted (extendWeave sub add) := by
  refine ⟨fun s hs => List.mem_singleton.1 hs ▸ hsub, fun x s hs => ?_, fun _ _ hs => (nomatch hs)⟩
  change s ∈ (if isEpilogue x.2 = true then [add] else []) at hs
  split_ifs at hs
  · exact List.mem_singleton.1 hs ▸ hadd
  · cases hs

variable (f : Function) (standsAlone : UInt8 → Bool)

theorem runs_save (e : Word) (hsave : saveList ≠ []) (hblocks : f.blocks ≠ []) :
    ∃ b, extendStack standsAlone e saveList f.toBody = some b ∧ ∀ ops, Runs Semantic.next b.code b.code ops ↔
      ∃ t, Complete Semantic.next f.code t ∧ t.flatMap (saveWeave saveList).expand = ops := by
  obtain ⟨b, top, hrun, hcode, hops, hle, hids⟩ := prependAll (saveList.map fun r => ofBytes (pushBytes r)) hblocks
  have hcounted : Counted f.nextId b := by
    refine ⟨hle, fun y hy => ?_⟩
    rw [hcode, List.mem_append] at hy
    rcases hy with hy | hy
    · exact (hids y hy).2
    · exact (f.ids y hy).trans_le hle
  refine ⟨_, ?_, runs_edited (save_edits saveList f.nextId) hcode hcounted ?_ (fun y hy => (hids y hy).1)
    (saveWeave_inserted saveList)⟩
  · rw [List.foldlM_map] at hrun
    unfold extendStack
    dsimp only
    rw [if_pos hsave, hrun, ← epilogue_foldl]
    rfl
  · rw [hops, ← List.map_reverse]
    rfl

theorem runs_extend {sub add : Semantic} (hsub : instruction standsAlone (subBytes e) = some sub)
    (hadd : instruction standsAlone (addBytes e) = some add) (hins : sub.isInserted = true ∧ add.isInserted = true)
    (hblocks : f.blocks ≠ []) :
    ∃ b, extendStack standsAlone e [] f.toBody = some b ∧ ∀ ops, Runs Semantic.next b.code b.code ops ↔
      ∃ t, Complete Semantic.next f.code t ∧ t.flatMap (extendWeave sub add).expand = ops := by
  obtain ⟨b, hb⟩ := prepend_isSome sub hblocks
  obtain ⟨hcode, hnext, -⟩ := prepend_code hb
  have hle : f.nextId ≤ b.nextId := by omega
  have hnew : ∀ y ∈ [(f.nextId, sub)], f.nextId ≤ y.1 := by
    intro y hy
    rw [List.mem_singleton.1 hy]
  refine ⟨_, ?_, runs_edited (extend_edits sub add f.nextId) hcode hle rfl hnew (extendWeave_inserted hins.1 hins.2)⟩
  unfold extendStack
  dsimp only
  rw [if_neg (by simp), hsub, hadd, ← epilogue_foldl]
  change (prepend f.toBody sub).bind _ = _
  rw [hb]
  rfl

/-! ## The encoded size -/

variable {standsAlone}

/-- Both instructions have the first byte that is not zero as their operand. -/
theorem instruction_spec {sub : Semantic} (h : instruction standsAlone (subBytes e) = some sub) :
    ∃ i, (sizeBytes e).head? = some i ∧ sub = ofBytes [0x48, 0x83, 0xec, i] ∧
      instruction standsAlone (addBytes e) = some (ofBytes [0x48, 0x83, 0xc4, i]) := by
  unfold subBytes at h
  unfold addBytes
  cases hsize : sizeBytes e with
  | nil => simp [hsize, instruction] at h
  | cons i rest =>
    have hlength : (sizeBytes e).length ≤ 2 := List.length_filter_le _ _
    rw [hsize] at h hlength
    cases rest with
    | nil =>
      simp only [List.cons_append, List.nil_append, instruction, Option.some.injEq] at h ⊢
      exact ⟨i, rfl, h.symm, rfl⟩
    | cons j rest =>
      obtain rfl : rest = [] := by simpa using hlength
      simp only [List.cons_append, List.nil_append, instruction] at h ⊢
      split_ifs at h ⊢
      exact ⟨i, rfl, (Option.some.inj h).symm, rfl⟩

theorem fits_byte : ∀ n < 256, (sizeBytes (imm8 (UInt8.ofNat n))).head? = some (UInt8.ofNat n) →
    (imm8 (UInt8.ofNat n)).toNat < 128 ∨ imm8 (UInt8.ofNat n) = -1 := by
  decide +kernel

theorem imm8_of_lt : ∀ n < 128, imm8 (UInt8.ofNat n) = BitVec.ofNat 64 n := by
  decide +kernel

theorem small_byte : ∀ n < 128, ∀ i ∈ (sizeBytes (BitVec.ofNat 64 n)).head?, imm8 i = BitVec.ofNat 64 n := by
  intro n hn i hi
  have hmem := (List.mem_filter.1 (List.mem_of_head? hi)).1
  have hne : i ≠ 0 := by simpa using (List.mem_filter.1 (List.mem_of_head? hi)).2
  have hbyte : ∀ s, (byteAt (BitVec.ofNat 64 n) s).toNat = n >>> s % 256 := by
    intro s
    rw [byteAt, UInt8.toNat_ofBitVec, BitVec.toNat_setWidth, BitVec.toNat_ushiftRight, BitVec.toNat_ofNat,
      Nat.mod_eq_of_lt (show n < 2 ^ 64 by omega)]
  rcases List.mem_pair.1 hmem with rfl | rfl
  · refine absurd (UInt8.toNat_inj.1 ?_) hne
    rw [hbyte, Nat.shiftRight_eq_div_pow]
    change n / 256 % 256 = 0
    omega
  · rw [← UInt8.ofNat_toNat (x := byteAt _ 0), hbyte, Nat.shiftRight_zero, Nat.mod_eq_of_lt (by omega)]
    exact imm8_of_lt n hn

theorem imm8_ne_neg_byte : ∀ n < 256, UInt8.ofNat n ≠ 0 → imm8 (UInt8.ofNat n) ≠ -imm8 (UInt8.ofNat n) := by
  decide +kernel

/-- The operand is the size only for sizes below 128, and for the one that all bytes of are `ff`. -/
theorem imm8_eq_iff {i : UInt8} (h : (sizeBytes e).head? = some i) : imm8 i = e ↔ Fits e := by
  constructor
  · rintro rfl
    have := fits_byte i.toNat i.toNat_lt
    rw [UInt8.ofNat_toNat] at this
    exact this h
  · rintro (hlt | rfl)
    · have := small_byte e.toNat hlt i
      rw [BitVec.ofNat_toNat, BitVec.setWidth_eq] at this
      exact this h
    · have : (sizeBytes (-1)).head? = some 0xff := by decide +kernel
      rw [this, Option.some.injEq] at h
      subst h
      decide

theorem imm8_ne_neg {i : UInt8} (h : (sizeBytes e).head? = some i) : imm8 i ≠ -imm8 i := by
  have hi : i ≠ 0 := by
    have := List.mem_of_head? h
    simpa using (List.mem_filter.1 this).2
  have := imm8_ne_neg_byte i.toNat i.toNat_lt
  rw [UInt8.ofNat_toNat] at this
  exact this hi

/-! ## Paths -/

/-- The marks of a path are the prologue and one epilogue. -/
theorem path_marks_iff {β : Type} {P Q : List β} (hP : ∃ s ∈ P, s ∉ Q) (hQ : Q ≠ []) {q : Arrival × Instruction → Bool}
    (hq : ∀ x, q (.start, x) = q (.fall, x)) (x : Instruction) (t : List (Arrival × Instruction)) :
    ((.start, x) :: t).flatMap (fun y => (if y.1 = .start then P else []) ++ if q y then Q else []) = P ++ Q ↔
      (∀ y ∈ t, y.1 ≠ .start) ∧ ((.start, x) :: t).countP q = 1 := by
  have hfirst : ((.start, x) :: t).flatMap (fun y => (if y.1 = .start then P else []) ++ if q y then Q else []) =
      P ++ ((.fall, x) :: t).flatMap (fun y => (if decide (y.1 = .start) then P else []) ++ if q y then Q else []) := by
    simp [List.flatMap_cons, hq]
  have hcount : ((.start, x) :: t).countP q = ((.fall, x) :: t).countP q := by
    rw [List.countP_cons, List.countP_cons, hq]
  rw [hfirst, List.append_cancel_left_eq, flatMap_marks_iff _ _ hP hQ, hcount]
  simp

theorem op_original {s : Semantic} (h : s.isInserted = false) : s.op = none := by
  cases s with
  | inserted i => cases h
  | _ => rfl

theorem filterMap_ops {g : Register → List UInt8} {op : Register → Op} (h : ∀ r, decode (g r) = some (op r))
    (l : List Register) : (l.map fun r => ofBytes (g r)).filterMap Semantic.op = l.map op := by
  rw [List.filterMap_map, ← List.filterMap_eq_map]
  exact congrFun (congrArg List.filterMap (funext h)) l

/-- What the inserted code of a path does to the stack, with a save list. -/
theorem save_marks (h : Original t) : (t.flatMap (saveWeave saveList).expand).filterMap Semantic.op =
    t.flatMap fun y => (if y.1 = .start then saveList.reverse.map Op.push else []) ++
      if isEpilogue y.2.2 then saveList.map Op.pop else [] := by
  rw [List.filterMap_flatMap]
  refine List.flatMap_congr fun y hy => ?_
  have hop : [y.2.2].filterMap Semantic.op = [] := by simp [op_original (h y hy)]
  obtain ⟨a, x⟩ := y
  have hat : ((saveWeave saveList).atLabel x ++ [x.2]).filterMap Semantic.op =
      if isEpilogue x.2 then saveList.map Op.pop else [] := by
    rw [List.filterMap_append, hop, List.append_nil]
    change List.filterMap Semantic.op (if isEpilogue x.2 = true then saveList.map fun r => ofBytes (popBytes r) else []) = _
    split_ifs
    · exact filterMap_ops decode_popBytes saveList
    · rfl
  cases a with
  | start =>
    change List.filterMap Semantic.op (saveList.reverse.map (fun r => ofBytes (pushBytes r)) ++
      ([] ++ ((saveWeave saveList).atLabel x ++ [x.2]))) = _
    rw [List.nil_append, List.filterMap_append, hat, filterMap_ops decode_pushBytes]
    rfl
  | fall => exact hat
  | jump => exact hat

/-- The same without one. -/
theorem extend_marks (i : UInt8) (h : Original t) :
    ((t.flatMap (extendWeave (ofBytes [0x48, 0x83, 0xec, i]) (ofBytes [0x48, 0x83, 0xc4, i])).expand).filterMap
      Semantic.op).filterMap Op.moves =
    t.flatMap fun y => (if y.1 = .start then [-imm8 i] else []) ++ if passes [] y then [imm8 i] else [] := by
  rw [List.filterMap_filterMap, List.filterMap_flatMap]
  refine List.flatMap_congr fun y hy => ?_
  have hop := op_original (h y hy)
  obtain ⟨a, x⟩ := y
  have hsub : (Semantic.op (ofBytes [0x48, 0x83, 0xec, i])).bind Op.moves = some (-imm8 i) := rfl
  have hadd : (Semantic.op (ofBytes [0x48, 0x83, 0xc4, i])).bind Op.moves = some (imm8 i) := rfl
  cases a <;> by_cases hepi : isEpilogue x.2 = true <;>
    simp [Weave.expand, extendWeave, passes, hepi, hop, hsub, hadd]

theorem regular_save_iff (hsave : saveList ≠ []) (hstart : ∃ x t', t = (.start, x) :: t') (h : Original t) :
    Balanced e saveList (t.flatMap (saveWeave saveList).expand) ↔ Regular e saveList t := by
  obtain ⟨x, t', rfl⟩ := hstart
  obtain ⟨r, hr⟩ := List.exists_mem_of_ne_nil saveList hsave
  have hq : passes saveList = fun y => isEpilogue y.2.2 := funext fun y => by simp [passes, hsave]
  unfold Balanced
  rw [if_neg hsave, save_marks h]
  have hP : ∃ s ∈ saveList.reverse.map Op.push, s ∉ saveList.map Op.pop :=
    ⟨.push r, List.mem_map_of_mem (List.mem_reverse.2 hr), by simp⟩
  rw [path_marks_iff hP (by simpa using hsave) fun _ => rfl]
  constructor
  · rintro ⟨honce, hexit⟩
    exact ⟨fun hnil => absurd hnil hsave, honce, hq ▸ hexit⟩
  · rintro ⟨-, honce, hexit⟩
    exact ⟨honce, hq ▸ hexit⟩

theorem regular_extend_iff {i : UInt8} (hi : (sizeBytes e).head? = some i) (hstart : ∃ x t', t = (.start, x) :: t')
    (h : Original t) :
    Balanced e [] (t.flatMap (extendWeave (ofBytes [0x48, 0x83, 0xec, i]) (ofBytes [0x48, 0x83, 0xc4, i])).expand) ↔
      Regular e [] t := by
  obtain ⟨x, t', rfl⟩ := hstart
  have hP : ∃ s ∈ [-imm8 i], s ∉ [imm8 i] := ⟨_, List.mem_singleton_self _, by simpa using (imm8_ne_neg hi).symm⟩
  have hmarks := path_marks_iff hP (List.cons_ne_nil _ _) (q := passes []) (fun _ => rfl) x t'
  unfold Balanced
  rw [if_pos rfl, extend_marks i h]
  constructor
  · intro hb
    -- the first move is that of the prologue
    have hfit : imm8 i = e := by
      have hhead := congrArg List.head? hb
      simpa [List.flatMap_cons] using hhead
    subst hfit
    obtain ⟨honce, hexit⟩ := hmarks.1 hb
    exact ⟨fun _ => (imm8_eq_iff hi).1 rfl, honce, hexit⟩
  · rintro ⟨hfits, honce, hexit⟩
    obtain rfl := (imm8_eq_iff hi).2 (hfits rfl)
    exact hmarks.2 ⟨honce, hexit⟩

/-- The prologue can be disassembled. -/
def Encodable (standsAlone : UInt8 → Bool) (extendSize : Word) (saveList : List Register) : Prop :=
  saveList ≠ [] ∨ (instruction standsAlone (subBytes extendSize)).isSome

theorem extendStack_isSome {b' : Body} (h : extendStack standsAlone e saveList b = some b') :
    b.blocks ≠ [] ∧ Encodable standsAlone e saveList := by
  have hprepend : ∀ s, b.blocks = [] → prepend b s = none := fun s hb => by simp [prepend, hb]
  unfold extendStack at h
  dsimp only at h
  split_ifs at h with hsave
  · refine ⟨fun hb => ?_, .inl hsave⟩
    cases saveList with
    | nil => exact hsave rfl
    | cons r saveList =>
      rw [List.foldlM_cons, hprepend _ hb] at h
      cases h
  · obtain ⟨sub, hsub, h⟩ := Option.bind_eq_some_iff.1 h
    obtain ⟨b₁, hb₁, -⟩ := Option.bind_eq_some_iff.1 h
    refine ⟨fun hb => ?_, .inr ?_⟩
    · rw [hprepend sub hb] at hb₁
      cases hb₁
    · rw [hsub]
      rfl

/-- The runs of the extended function, and what they have to be, by those of the original. -/
theorem extend_runs (f : Function) (hblocks : f.blocks ≠ []) (hencode : Encodable standsAlone e saveList) :
    ∃ b w, extendStack standsAlone e saveList f.toBody = some b ∧
      (∀ ops, Runs Semantic.next b.code b.code ops ↔
        ∃ t, Complete Semantic.next f.code t ∧ t.flatMap (Weave.expand w) = ops) ∧
      ∀ t, Complete Semantic.next f.code t → (Balanced e saveList (t.flatMap (Weave.expand w)) ↔ Regular e saveList t) := by
  by_cases hsave : saveList = []
  · subst hsave
    obtain ⟨sub, hsub⟩ := Option.isSome_iff_exists.1 (hencode.resolve_left (by simp))
    obtain ⟨i, hi, rfl, hadd⟩ := instruction_spec hsub
    obtain ⟨b, hb, hruns⟩ := runs_extend f standsAlone hsub hadd ⟨rfl, rfl⟩ hblocks
    exact ⟨b, _, hb, hruns, fun t ht => regular_extend_iff hi ht.eq_cons (complete_original ht)⟩
  · obtain ⟨b, hb, hruns⟩ := runs_save f standsAlone e hsave hblocks
    exact ⟨b, _, hb, hruns, fun t ht => regular_save_iff hsave ht.eq_cons (complete_original ht)⟩

/-- `je` to the `ret` behind the next instruction. -/
def jumpFunction : Function where
  blocks := [[(0, .controlFlow (.conditional true) (.instruction 2))], [(1, .isolated ⟨false, false, true, false⟩)],
    [(2, .returnInstruction)]]
  nextId := 3
  nodup := by decide
  ids := by decide
  targets := by simp [Semantic.next, Semantic.goes]
  original := by decide

end Egalito.Code.StackExtend
