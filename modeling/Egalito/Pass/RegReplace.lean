import Egalito.Disasm.RegBits
/-!
# Replacing a register of a function

`AARCH64RegReplacePass::replacePerFunction` of `pass/regreplace.cpp`, with the
insertions of `operation/mutator.cpp`, the epilogues of `analysis/frametype.cpp`
and the usage list of `analysis/reguse.cpp`. An instruction is a name of an object,
and may be at several places. `none` is an access to a list without elements.
-/

open Egalito.Lib Egalito.A64 Egalito.RegBits

namespace Egalito.Pass.RegReplace

/-! ## The function -/

/-- What a link leads to; `other` is any other chunk or address. -/
inductive Link (I F : Type)
  | function (target : F)
  | plt
  | instruction (target : I)
  | other

/-- An assembly is its bytes. A linked instruction also has the data that it is rebuilt from. -/
inductive Semantic (I F : Type)
  | returnInstruction (assembly : Bytes)
  | controlFlow (isBL : Bool) (link : Link I F) (data assembly : Bytes)
  | indirectJump (tablejump : Bool) (assembly : Bytes)
  | linked (data assembly : Bytes)
  | isolated (assembly : Bytes)
  | literal

structure Function (I B F : Type) where
  name : F
  blocks : List B
  children : B → List I
  parent : I → B
  semantic : I → Semantic I F

variable {I B F : Type}

namespace Semantic

def getAssembly : Semantic I F → Option Bytes
  | returnInstruction assembly | controlFlow _ _ _ assembly | indirectJump _ assembly | linked _ assembly | isolated assembly =>
    some assembly
  | literal => none

def setAssembly (bytes : Bytes) : Semantic I F → Semantic I F
  | returnInstruction _ => returnInstruction bytes
  | controlFlow isBL link data _ => controlFlow isBL link data bytes
  | indirectJump tablejump _ => indirectJump tablejump bytes
  | linked data _ => linked data bytes
  | isolated _ => isolated bytes
  | literal => literal

/-- `setLink` of a `ControlFlowInstruction`. -/
def setLink (newLink : Link I F) : Semantic I F → Semantic I F
  | controlFlow isBL _ data assembly => controlFlow isBL newLink data assembly
  | semantic => semantic

/-- The target of a `ControlFlowInstruction`, if it is an instruction. -/
def getTarget : Semantic I F → Option I
  | controlFlow _ (.instruction target) _ _ => some target
  | _ => none

/-- The bytes that `InstrWriter` writes; those of a linked instruction are rebuilt from its data, and keep the registers. -/
def written : Semantic I F → Option Bytes
  | controlFlow _ _ data _ | linked data _ => some data
  | returnInstruction assembly | indirectJump _ assembly | isolated assembly => some assembly
  | literal => none

end Semantic

namespace Function

variable (function : Function I B F)

def instructions : List I := function.blocks.flatMap function.children

section

variable [DecidableEq I] [DecidableEq B]

/-- `genericInsertAt` and `setParent`. -/
def insertAt (chunk : B) (index : Nat) (newChunk : I) : Function I B F :=
  { function with
    children := Function.update function.children chunk ((function.children chunk).insertIdx index newChunk)
    parent := Function.update function.parent newChunk chunk }

/-- `ChunkMutator(chunk).insertAfter` -/
def insertAfter (chunk : B) (insertPoint newChunk : I) : Function I B F :=
  function.insertAt chunk ((function.children chunk).idxOf insertPoint + 1) newChunk

/-- `ChunkMutator(chunk).insertBefore` -/
def insertBefore (chunk : B) (insertPoint newChunk : I) : Function I B F :=
  function.insertAt chunk ((function.children chunk).idxOf insertPoint) newChunk

def setSemantic (ins : I) (semantic : Semantic I F) : Function I B F :=
  { function with semantic := Function.update function.semantic ins semantic }

end

end Function

/-! ## `FrameType` -/

structure FrameType (I : Type) where
  epilogueInstrs : List I
  jumpToEpilogueInstrs : List I

section

variable [DecidableEq F]

/-- The instructions that leave the function. -/
def isEpilogue (function : Function I B F) (ins : I) : Bool :=
  match function.semantic ins with
  | .returnInstruction _ => true
  | .controlFlow isBL link _ _ => !isBL && match link with
    | .function target => target ≠ function.name
    | .plt => true
    | _ => false
  | .indirectJump tablejump _ => !tablejump
  | _ => false

variable [DecidableEq I] [DecidableEq B]

/-- The constructor. -/
def FrameType.new (function : Function I B F) : FrameType I :=
  let epilogueInstrs := function.instructions.filter (isEpilogue function)
  { epilogueInstrs := epilogueInstrs
    jumpToEpilogueInstrs := function.instructions.filter fun ins => ((function.semantic ins).getTarget.any (· ∈ epilogueInstrs)) }

omit [DecidableEq F] in
def fixEpilogue (oldInstr newInstr : I) (state : Function I B F × FrameType I) : Function I B F × FrameType I :=
  let (function, frame) := state
  let relink := fun (function : Function I B F) cfi =>
    if (function.semantic cfi).getTarget = some oldInstr then
      function.setSemantic cfi ((function.semantic cfi).setLink (.instruction newInstr))
    else function
  (frame.jumpToEpilogueInstrs.foldl relink function, { frame with epilogueInstrs := frame.epilogueInstrs.replace oldInstr newInstr })

/-! ## The pass -/

/-- The register that is replaced, `R18`. -/
def regX : RegBits.Register := 18

/-- The list of `AARCH64RegisterUsageX`. -/
def getInstructionList (function : Function I B F) : List I :=
  function.instructions.filter fun ins => ((function.semantic ins).getAssembly.any fun assembly => mentions (wordOf assembly) regX)

/-- `R_CALLEE_SAVED_BEGIN` to `R_CALLEE_SAVED_END`. -/
def CalleeSaved : Type := { reg : RegBits.Register // 19 ≤ reg ∧ reg ≤ 28 }

def bytesOf (word : BitVec 32) : Bytes := RegBits.encode ⟨word, false, ⟨[], []⟩⟩

/-- `str dual, [sp]` -/
def binStr (dualID : CalleeSaved) : BitVec 32 := 0xF9000000 ||| 31 <<< 5 ||| dualID.1.setWidth 32

/-- `ldr dual, [sp]` -/
def binLdr (dualID : CalleeSaved) : BitVec 32 := 0xF9400000 ||| 31 <<< 5 ||| dualID.1.setWidth 32

omit [DecidableEq F] [DecidableEq B] in
/-- The body of the loop that replaces the register. -/
def replaceInstruction (dualID : CalleeSaved) (state : Function I B F × AARCH64RegBits) (ins : I) : Function I B F × AARCH64RegBits :=
  let (function, regbits) := state
  match (function.semantic ins).getAssembly with
  | none => state
  | some assembly =>
    let regbits := RegBits.replaceRegister regX dualID.1 (RegBits.decode assembly regbits)
    (function.setSemantic ins ((function.semantic ins).setAssembly (RegBits.encode regbits)), regbits)

omit [DecidableEq F] in
/-- The two instructions are made, and the restore is put in front of the epilogues. -/
def saveAndRestore (dualID : CalleeSaved) (instrStr instrLdr : I) (frame : FrameType I) (function : Function I B F) :
    Option (Function I B F × FrameType I) := do
  let function := (function.setSemantic instrStr (.isolated (bytesOf (binStr dualID)))).setSemantic instrLdr
    (.isolated (bytesOf (binLdr dualID)))
  let firstB ← function.blocks.head?
  let firstI ← (function.children firstB).head?
  return frame.epilogueInstrs.foldl (fun (function, frame) ins =>
    fixEpilogue ins instrLdr (function.insertBefore (function.parent ins) ins instrLdr, frame))
    (function.insertAfter firstB firstI instrStr, frame)

omit [DecidableEq F] in
def replacePerFunction (dualID : CalleeSaved) (instrStr instrLdr : I) (frame : FrameType I) (regUsage : List I)
    (regbits : AARCH64RegBits) (function : Function I B F) : Option (Function I B F × FrameType I) := do
  let (function, frame) ← saveAndRestore dualID instrStr instrLdr frame function
  if regUsage.any fun ins => (function.semantic ins).getAssembly.isNone then return (function, frame)
  else return ((regUsage.foldl (replaceInstruction dualID) (function, regbits)).1, frame)

end

/-! ## The word of an instruction whose register is replaced -/

section

variable {word : BitVec 32} {pos : Nat} {oldReg newReg : RegBits.Register} {p : Pattern 32} {c : InstructionClass} {bytes : Bytes}

theorem and_fieldMask (hpos : pos ∈ positions) : word &&& fieldMask 32 pos 5 = (field word pos).setWidth 32 <<< pos := by
  refine BitVec.eq_of_getLsbD_eq fun i hi => ?_
  rw [BitVec.getLsbD_and, getLsbD_fieldMask hi, BitVec.getLsbD_shiftLeft, BitVec.getLsbD_setWidth, A64.field, BitVec.getLsbD_extractLsb']
  have hlt := le_of_mem_positions pos hpos
  by_cases hp : pos ≤ i
  · have hnot : ¬ i < pos := Nat.not_lt.2 hp
    have hiff : i - pos < 5 ↔ i < pos + 5 := by omega
    have hlt' : i - pos < 32 := by omega
    simp only [hi, hp, hnot, hiff, hlt', show pos + (i - pos) = i by omega, decide_true, decide_false, Bool.true_and, Bool.not_false]
    exact Bool.and_comm _ _
  · have hlt' : i < pos := Nat.lt_of_not_le hp
    simp [hp, hlt']

/-- Whether a pattern is kept when the register is replaced at a position: it does not look there, or at no word with the register. -/
def Keeps (p : Pattern 32) (reg : RegBits.Register) (pos : Nat) : Prop :=
  p.mask &&& fieldMask 32 pos 5 = 0 ∨ p.value &&& fieldMask 32 pos 5 ≠ reg.setWidth 32 <<< pos &&& p.mask

instance (p : Pattern 32) (reg : RegBits.Register) (pos : Nat) : Decidable (Keeps p reg pos) := inferInstanceAs (Decidable (_ ∨ _))

theorem Keeps.matches_replaceAt (h : Keeps p oldReg pos) (hpos : pos ∈ positions) (hp : p.Matches word) :
    p.Matches (replaceAt oldReg newReg word pos) := by
  rw [replaceAt_eq]
  split_ifs with hold
  · rcases h with h | h
    · rw [Pattern.Matches, ← hp]
      refine BitVec.eq_of_getLsbD_eq fun i hi => ?_
      have hbit := congrArg (fun x : BitVec 32 => x.getLsbD i) h
      simp only [BitVec.getLsbD_and, getLsbD_fieldMask hi, BitVec.getLsbD_zero] at hbit
      rw [BitVec.getLsbD_and, BitVec.getLsbD_and, getLsbD_setField hi]
      by_cases hin : pos ≤ i ∧ i < pos + 5
      · have hmask : p.mask.getLsbD i = false := by simpa [hin.1, hin.2] using hbit
        rw [hmask, Bool.and_false, Bool.and_false]
      · rw [if_neg hin]
    · refine absurd ?_ h
      rw [← hp, ← hold, ← and_fieldMask hpos, BitVec.and_assoc, BitVec.and_assoc, BitVec.and_comm p.mask]
  · exact hp

theorem matches_foldl_replaceAt {l : List Nat} (hl : ∀ pos ∈ l, pos ∈ positions) (hkeeps : ∀ pos ∈ l, Keeps p oldReg pos)
    (hp : p.Matches word) : p.Matches (l.foldl (replaceAt oldReg newReg) word) := by
  induction l generalizing word with
  | nil => exact hp
  | cons pos l ih =>
    rw [List.forall_mem_cons] at hl hkeeps
    exact ih hl.2 hkeeps.2 (hkeeps.1.matches_replaceAt hl.1 hp)

theorem keeps_patterns : ∀ c ∈ InstructionClass.all, ∀ list ∈ (questionsLeft c).results, ∀ pos ∈ list.first ++ list.second,
    ∀ p ∈ c.patterns, Keeps p regX pos := by decide +kernel

theorem nil_of_exceptions : ∀ c ∈ InstructionClass.all, c.exceptions ≠ [] → ∀ list ∈ (questionsLeft c).results,
    list.first ++ list.second = [] := by decide +kernel

/-- Another register in the place of `R18` does not make another instruction. -/
theorem matches_replaced (h : c.Matches word) :
    c.Matches (((regPositions word).first ++ (regPositions word).second).foldl (replaceAt regX newReg) word) := by
  have hmem : regPositions word ∈ (questionsLeft c).results := regPositions_eq h ▸ Decision.eval_mem_results _
  obtain ⟨⟨p, hp, hmatches⟩, hexceptions⟩ := id h
  refine ⟨⟨p, hp, matches_foldl_replaceAt (mem_positions_of_mem_regPositions word)
    (fun pos hpos => keeps_patterns c c.mem_all _ hmem pos hpos p hp) hmatches⟩, ?_⟩
  by_cases hnil : c.exceptions = []
  · rw [hnil]
    exact fun _ he => nomatch he
  · rw [nil_of_exceptions c c.mem_all hnil _ hmem]
    exact hexceptions

/-- The register is not mentioned any more exactly when its fields are among those that are found. -/
theorem mentions_replaced (h : c.Matches word) (hnew : newReg ≠ regX) :
    mentions (((regPositions word).first ++ (regPositions word).second).foldl (replaceAt regX newReg) word) regX = false ↔
      ∀ pos ∈ c.operands, field word pos = regX → pos ∈ (regPositions word).first ++ (regPositions word).second := by
  rw [← Bool.not_eq_true, mentions_iff (matches_replaced h)]
  push Not
  refine forall₂_congr fun pos hpos => ?_
  rw [field_foldl_replaceAt (mem_positions_of_mem_regPositions word) (c.mem_positions pos hpos)]
  constructor
  · intro hne hfield
    by_contra hnot
    rw [if_neg fun h => hnot h.1] at hne
    exact hne hfield
  · intro hfound
    split_ifs with hreplaced
    · exact hnew
    · exact fun hfield => hreplaced ⟨hfound hfield, hfield⟩

theorem wordOf_encode (s : AARCH64RegBits) : wordOf (RegBits.encode s) = s.bin := by
  refine BitVec.eq_of_getLsbD_eq fun i hi => ?_
  rw [getLsbD_wordOf]
  interval_cases i <;> simp [RegBits.encode]

end

/-! ## Insertions -/

/-- What is written of the instruction does not mention the register any more: it is written from its assembly, whose
fields with the register are found, or the data that it is rebuilt from do not mention it. -/
def IsReplaceable : Semantic I F → Prop
  | .controlFlow _ _ data _ | .linked data _ => mentions (wordOf data) regX = false
  | .returnInstruction assembly | .indirectJump _ assembly | .isolated assembly =>
    ∀ c : InstructionClass, c.Matches (wordOf assembly) → ∀ pos ∈ c.operands, field (wordOf assembly) pos = regX →
      pos ∈ (regPositions (wordOf assembly)).first ++ (regPositions (wordOf assembly)).second
  | .literal => True

section

variable [DecidableEq I] [DecidableEq B] {function function' : Function I B F} {chunk : B} {index : Nat} {ins newChunk : I}

omit [DecidableEq B] in
theorem insertIdx_idxOf {A C : List I} (hA : ins ∉ A) :
    (A ++ ins :: C).insertIdx ((A ++ ins :: C).idxOf ins) newChunk = A ++ newChunk :: ins :: C := by
  induction A with
  | nil => simp
  | cons x A ih =>
    rw [List.mem_cons, not_or] at hA
    rw [List.cons_append, List.idxOf_cons_ne _ (Ne.symm hA.1), List.insertIdx_succ_cons, ih hA.2, List.cons_append]

/-- Each block and each instruction is at one place, and knows where that is. -/
structure Tree (function : Function I B F) : Prop where
  nodup_blocks : function.blocks.Nodup
  nodup : function.instructions.Nodup
  parent : ∀ b ∈ function.blocks, ∀ ins ∈ function.children b, function.parent ins = b

theorem instructions_insertAt (hblocks : function.blocks.Nodup) (hchunk : chunk ∈ function.blocks)
    (hindex : index ≤ (function.children chunk).length) :
    (function.insertAt chunk index newChunk).instructions.Perm (newChunk :: function.instructions) := by
  obtain ⟨before, after, hsplit⟩ := List.append_of_mem hchunk
  rw [hsplit] at hblocks
  obtain ⟨-, hafter, hdisjoint⟩ := List.nodup_append.1 hblocks
  have hother : ∀ b ∈ before ++ after, Function.update function.children chunk ((function.children chunk).insertIdx index newChunk) b =
      function.children b := by
    intro b hb
    refine Function.update_of_ne ?_ _ _
    rintro rfl
    rcases List.mem_append.1 hb with hb | hb
    · exact hdisjoint b hb b List.mem_cons_self rfl
    · exact (List.nodup_cons.1 hafter).1 hb
  simp only [Function.instructions, Function.insertAt, hsplit, List.flatMap_append, List.flatMap_cons, Function.update_self]
  rw [List.flatMap_congr fun b hb => hother b (List.mem_append_left _ hb),
    List.flatMap_congr fun b hb => hother b (List.mem_append_right _ hb)]
  have hperm := List.perm_insertIdx newChunk (function.children chunk) hindex
  exact ((hperm.append_right _).append_left _).trans List.perm_middle

theorem Tree.insertAt (h : Tree function) (hchunk : chunk ∈ function.blocks) (hindex : index ≤ (function.children chunk).length)
    (hnew : newChunk ∉ function.instructions) : Tree (function.insertAt chunk index newChunk) := by
  refine ⟨h.nodup_blocks, ?_, fun b hb ins hins => ?_⟩
  · exact (instructions_insertAt h.nodup_blocks hchunk hindex).nodup_iff.2 (List.nodup_cons.2 ⟨hnew, h.nodup⟩)
  · simp only [Function.insertAt] at hins ⊢
    by_cases hbc : b = chunk
    · subst hbc
      rw [Function.update_self, List.mem_insertIdx hindex] at hins
      by_cases hx : ins = newChunk
      · rw [hx, Function.update_self]
      · rw [Function.update_of_ne hx]
        exact h.parent b hb ins (hins.resolve_left hx)
    · rw [Function.update_of_ne hbc] at hins
      have hx : ins ≠ newChunk := fun heq => hnew (heq ▸ List.mem_flatMap.2 ⟨b, hb, hins⟩)
      rw [Function.update_of_ne hx]
      exact h.parent b hb ins hins

/-! ## Relinking the jumps -/

/-- The links apart, the function is the same. -/
structure SameCode (function function' : Function I B F) : Prop where
  blocks : function'.blocks = function.blocks
  children : function'.children = function.children
  parent : function'.parent = function.parent
  getAssembly : ∀ ins, (function'.semantic ins).getAssembly = (function.semantic ins).getAssembly
  replaceable : ∀ ins, IsReplaceable (function'.semantic ins) ↔ IsReplaceable (function.semantic ins)

omit [DecidableEq I] [DecidableEq B] in
theorem SameCode.refl (function : Function I B F) : SameCode function function := ⟨rfl, rfl, rfl, fun _ => rfl, fun _ => Iff.rfl⟩

omit [DecidableEq I] in
theorem getTarget_setLink {semantic : Semantic I F} {oldInstr newInstr : I} (h : semantic.getTarget = some oldInstr) :
    (semantic.setLink (.instruction newInstr)).getTarget = some newInstr := by
  cases semantic with
  | controlFlow isBL link data assembly => rfl
  | _ => cases h

def relink (oldInstr newInstr : I) (function : Function I B F) (cfi : I) : Function I B F :=
  if (function.semantic cfi).getTarget = some oldInstr then
    function.setSemantic cfi ((function.semantic cfi).setLink (.instruction newInstr))
  else function

omit [DecidableEq B] in
theorem fixEpilogue_fst (oldInstr newInstr : I) (state : Function I B F × FrameType I) :
    (fixEpilogue oldInstr newInstr state).1 = state.2.jumpToEpilogueInstrs.foldl (relink oldInstr newInstr) state.1 := rfl

omit [DecidableEq B] in
theorem sameCode_foldl_relink (oldInstr newInstr : I) (cfis : List I) (function : Function I B F) :
    SameCode function (cfis.foldl (relink oldInstr newInstr) function) := by
  induction cfis generalizing function with
  | nil => exact .refl function
  | cons cfi cfis ih =>
    have hstep : SameCode function (relink oldInstr newInstr function cfi) := by
      unfold relink
      split_ifs
      · refine ⟨rfl, rfl, rfl, fun ins => ?_, fun ins => ?_⟩ <;>
          · simp only [Function.setSemantic, Function.update_apply]
            split_ifs with hins
            · subst hins
              cases function.semantic ins <;> rfl
            · rfl
      · exact .refl function
    obtain ⟨hblocks, hchildren, hparent, hassembly, hreplaceable⟩ := ih (relink oldInstr newInstr function cfi)
    exact ⟨hblocks.trans hstep.blocks, hchildren.trans hstep.children, hparent.trans hstep.parent,
      fun ins => (hassembly ins).trans (hstep.getAssembly ins), fun ins => (hreplaceable ins).trans (hstep.replaceable ins)⟩

omit [DecidableEq B] in
/-- Exactly the jumps of the list to the old instruction lead to the new one then. -/
theorem getTarget_foldl_relink {oldInstr newInstr : I} (hne : newInstr ≠ oldInstr) (cfis : List I) (function : Function I B F) (ins : I) :
    ((cfis.foldl (relink oldInstr newInstr) function).semantic ins).getTarget =
      if ins ∈ cfis ∧ (function.semantic ins).getTarget = some oldInstr then some newInstr else (function.semantic ins).getTarget := by
  induction cfis generalizing function with
  | nil => simp
  | cons cfi cfis ih =>
    have hstep : ((relink oldInstr newInstr function cfi).semantic ins).getTarget =
        if ins = cfi ∧ (function.semantic ins).getTarget = some oldInstr then some newInstr else (function.semantic ins).getTarget := by
      unfold relink
      by_cases htarget : (function.semantic cfi).getTarget = some oldInstr
      · rw [if_pos htarget]
        simp only [Function.setSemantic, Function.update_apply]
        by_cases hins : ins = cfi
        · subst hins
          rw [if_pos rfl, if_pos ⟨rfl, htarget⟩, getTarget_setLink htarget]
        · rw [if_neg hins, if_neg fun h => hins h.1]
      · rw [if_neg htarget, if_neg]
        rintro ⟨rfl, h⟩
        exact htarget h
    rw [List.foldl_cons, ih, hstep]
    by_cases hins : ins = cfi
    · by_cases htarget : (function.semantic ins).getTarget = some oldInstr
      · simp [hins, hins ▸ htarget, hne]
      · simp [htarget]
    · simp [hins]

/-! ## The loop over the epilogues -/

/-- The body of the loop. -/
def restoreBefore (instrLdr : I) (state : Function I B F × FrameType I) (ins : I) : Function I B F × FrameType I :=
  fixEpilogue ins instrLdr (state.1.insertBefore (state.1.parent ins) ins instrLdr, state.2)

/-- After some of the epilogues: the restore is there once for each of them. -/
structure Restoring (instrLdr : I) (done : List I) (function function' : Function I B F) : Prop where
  blocks : function'.blocks = function.blocks
  instructions : function'.instructions.Perm (List.replicate done.length instrLdr ++ function.instructions)
  parent : ∀ ins, ins ≠ instrLdr → function'.parent ins = function.parent ins
  getAssembly : ∀ ins, (function'.semantic ins).getAssembly = (function.semantic ins).getAssembly
  replaceable : ∀ ins, IsReplaceable (function'.semantic ins) ↔ IsReplaceable (function.semantic ins)

theorem restoring_foldl {instrLdr : I} (hblocks : function.blocks.Nodup) (frame : FrameType I) (epilogueInstrs : List I)
    (hmem : ∀ ins ∈ epilogueInstrs, ins ≠ instrLdr ∧ function.parent ins ∈ function.blocks) :
    Restoring instrLdr epilogueInstrs function (epilogueInstrs.foldl (restoreBefore instrLdr) (function, frame)).1 := by
  induction epilogueInstrs using List.reverseRecOn with
  | nil => exact ⟨rfl, List.Perm.refl _, fun _ _ => rfl, fun _ => rfl, fun _ => Iff.rfl⟩
  | append_singleton done ins ih =>
    obtain ⟨hne, hparent⟩ := hmem ins (List.mem_append_right _ (List.mem_singleton_self ins))
    rw [List.foldl_append, List.foldl_cons, List.foldl_nil]
    have hdone := ih fun ins hins => hmem ins (List.mem_append_left _ hins)
    generalize done.foldl (restoreBefore instrLdr) (function, frame) = state at hdone ⊢
    rw [restoreBefore, fixEpilogue_fst]
    have hsame := sameCode_foldl_relink ins instrLdr state.2.jumpToEpilogueInstrs
      (state.1.insertBefore (state.1.parent ins) ins instrLdr)
    have hinsert : (state.1.insertBefore (state.1.parent ins) ins instrLdr).instructions.Perm (instrLdr :: state.1.instructions) :=
      instructions_insertAt (hdone.blocks ▸ hblocks)
      (show state.1.parent ins ∈ state.1.blocks by rw [hdone.parent ins hne, hdone.blocks]; exact hparent)
      (List.idxOf_le_length (a := ins))
    refine ⟨hsame.blocks.trans hdone.blocks, ?_, fun other hother => ?_, fun other => (hsame.getAssembly other).trans (hdone.getAssembly other),
      fun other => (hsame.replaceable other).trans (hdone.replaceable other)⟩
    · rw [Function.instructions, hsame.blocks, hsame.children, List.length_append, List.length_singleton, List.replicate_succ]
      exact hinsert.trans (hdone.instructions.cons _)
    · rw [hsame.parent]
      exact (Function.update_of_ne hother _ _).trans (hdone.parent other hother)

/-! ## The loop that replaces the register -/

/-- The bytes of an assembly in which the register is replaced. -/
def replacedBytes (dualID : CalleeSaved) (assembly : Bytes) : Bytes :=
  RegBits.encode (RegBits.replaceRegister regX dualID.1 (RegBits.decode assembly ⟨0, false, ⟨[], []⟩⟩))

/-- The semantic after its assembly is replaced. -/
def replacedSemantic (dualID : CalleeSaved) (semantic : Semantic I F) : Semantic I F :=
  match semantic.getAssembly with
  | none => semantic
  | some assembly => semantic.setAssembly (replacedBytes dualID assembly)

omit [DecidableEq B] in
theorem replaceInstruction_fst (dualID : CalleeSaved) (state : Function I B F × AARCH64RegBits) :
    (replaceInstruction dualID state ins).1 = state.1.setSemantic ins (replacedSemantic dualID (state.1.semantic ins)) := by
  unfold replaceInstruction replacedSemantic
  cases h : (state.1.semantic ins).getAssembly with
  | none =>
    simp only [h, Function.setSemantic, Function.update_eq_self]
  | some assembly =>
    simp only [h]
    rfl

omit [DecidableEq B] in
/-- Each instruction of the list is replaced once, and nothing else changes. -/
theorem foldl_replaceInstruction {dualID : CalleeSaved} {regUsage : List I} (hnodup : regUsage.Nodup)
    (state : Function I B F × AARCH64RegBits) : (regUsage.foldl (replaceInstruction dualID) state).1 =
      { state.1 with semantic := fun ins =>
          if ins ∈ regUsage then replacedSemantic dualID (state.1.semantic ins) else state.1.semantic ins } := by
  induction regUsage generalizing state with
  | nil => simp
  | cons first regUsage ih =>
    obtain ⟨hfirst, hnodup⟩ := List.nodup_cons.1 hnodup
    rw [List.foldl_cons, ih hnodup, replaceInstruction_fst]
    simp only [Function.setSemantic, Function.mk.injEq, true_and]
    funext ins
    by_cases hins : ins = first
    · subst hins
      simp [hfirst]
    · simp [hins]

theorem wordOf_replacedBytes (dualID : CalleeSaved) (assembly : Bytes) : wordOf (replacedBytes dualID assembly) =
    ((regPositions (wordOf assembly)).first ++ (regPositions (wordOf assembly)).second).foldl (replaceAt regX dualID.1) (wordOf assembly) := by
  rw [replacedBytes, wordOf_encode, bin_replaceRegister (Decoded.decode _)]

theorem CalleeSaved.ne_regX (dualID : CalleeSaved) : dualID.1 ≠ regX := by
  intro h
  have hle := dualID.2.1
  rw [h] at hle
  exact absurd hle (by decide)

theorem mentions_replacedBytes (dualID : CalleeSaved) {assembly : Bytes} (hmentions : mentions (wordOf assembly) regX = true) :
    mentions (wordOf (replacedBytes dualID assembly)) regX = false ↔
      ∀ c : InstructionClass, c.Matches (wordOf assembly) → ∀ pos ∈ c.operands, field (wordOf assembly) pos = regX →
        pos ∈ (regPositions (wordOf assembly)).first ++ (regPositions (wordOf assembly)).second := by
  obtain ⟨c, -, h⟩ := List.any_eq_true.1 hmentions
  have hc : c.Matches (wordOf assembly) := of_decide_eq_true (Bool.and_eq_true_iff.1 h).1
  rw [wordOf_replacedBytes, mentions_replaced hc dualID.ne_regX]
  constructor
  · intro hfound d hd
    rw [← InstructionClass.eq_of_matches hc hd]
    exact hfound
  · exact fun hfound => hfound c hc

omit [DecidableEq I] in
theorem written_replacedSemantic (dualID : CalleeSaved) {semantic : Semantic I F}
    (hmentions : (semantic.getAssembly.any fun assembly => mentions (wordOf assembly) regX) = true) :
    (∀ bytes, (replacedSemantic dualID semantic).written = some bytes → mentions (wordOf bytes) regX = false) ↔ IsReplaceable semantic := by
  cases semantic with
  | controlFlow isBL link data assembly | linked data assembly =>
    simp [replacedSemantic, Semantic.getAssembly, Semantic.setAssembly, Semantic.written, IsReplaceable]
  | returnInstruction assembly | indirectJump tablejump assembly | isolated assembly =>
    simp only [replacedSemantic, Semantic.getAssembly, Semantic.setAssembly, Semantic.written, Option.some.injEq, forall_eq', IsReplaceable]
    exact mentions_replacedBytes dualID hmentions
  | literal => simp [replacedSemantic, Semantic.getAssembly, Semantic.written, IsReplaceable]

/-! ## What the pass should do -/

omit [DecidableEq B] in
theorem semantic_foldl_relink (oldInstr newInstr : I) {cfis : List I} (hins : ins ∉ cfis) (function : Function I B F) :
    (cfis.foldl (relink oldInstr newInstr) function).semantic ins = function.semantic ins := by
  induction cfis generalizing function with
  | nil => rfl
  | cons cfi cfis ih =>
    rw [List.mem_cons, not_or] at hins
    rw [List.foldl_cons, ih hins.2, relink]
    split_ifs
    · exact Function.update_of_ne hins.1 _ _
    · rfl

omit [DecidableEq I] in
theorem getTarget_replacedSemantic (dualID : CalleeSaved) (semantic : Semantic I F) :
    (replacedSemantic dualID semantic).getTarget = semantic.getTarget := by
  cases semantic with
  | controlFlow isBL link data assembly => cases link <;> rfl
  | _ => rfl

/-- The epilogues are instructions of the function, and the jumps to them that it has are in the list. -/
structure WellFormed (function : Function I B F) (frame : FrameType I) : Prop where
  tree : Tree function
  mem_epilogueInstrs : ∀ ins ∈ frame.epilogueInstrs, ins ∈ function.instructions
  mem_jumps : ∀ ins ∈ frame.jumpToEpilogueInstrs, ins ∈ function.instructions
  jumps : ∀ ins ∈ function.instructions, ∀ e ∈ frame.epilogueInstrs, (function.semantic ins).getTarget = some e →
    ins ∈ frame.jumpToEpilogueInstrs

/-- The objects of the two instructions that are made. -/
structure Fresh (function : Function I B F) (instrStr instrLdr : I) : Prop where
  ne : instrStr ≠ instrLdr
  str_notMem : instrStr ∉ function.instructions
  ldr_notMem : instrLdr ∉ function.instructions
  getTarget_str : (function.semantic instrStr).getTarget = none
  getTarget_ldr : (function.semantic instrLdr).getTarget = none

/-- Each epilogue has a restore of its own in front of it, where the jumps to it lead, and the register is gone. -/
structure Restored (dualID : CalleeSaved) (function function' : Function I B F) (epilogueInstrs : List I) (restore : I → I) : Prop where
  own : ∀ e ∈ epilogueInstrs, restore e ∉ function.instructions ∧
    function'.semantic (restore e) = .isolated (bytesOf (binLdr dualID))
  injective : ∀ e ∈ epilogueInstrs, ∀ e' ∈ epilogueInstrs, restore e = restore e' → e = e'
  before : ∀ e ∈ epilogueInstrs, ∃ b ∈ function'.blocks, ∃ A C, function'.children b = A ++ restore e :: e :: C
  tree : Tree function'
  jumps : ∀ ins, ∀ e ∈ epilogueInstrs, (function.semantic ins).getTarget = some e →
    (function'.semantic ins).getTarget = some (restore e)
  replaced : ∀ ins ∈ getInstructionList function, ∀ bytes, (function'.semantic ins).written = some bytes →
    mentions (wordOf bytes) regX = false

/-- One epilogue at most, no jump to it from another function, and what is written of the using instructions can be replaced. -/
structure IsRestorable (function : Function I B F) (frame : FrameType I) : Prop where
  epilogueInstrs : frame.epilogueInstrs.length ≤ 1
  jumps : ∀ ins, ∀ e ∈ frame.epilogueInstrs, (function.semantic ins).getTarget = some e → ins ∈ function.instructions
  replaceable : ∀ ins ∈ getInstructionList function, IsReplaceable (function.semantic ins)

/-- The function with the two objects, and the save. -/
structure Saved (dualID : CalleeSaved) (instrStr instrLdr : I) (function saved : Function I B F) : Prop where
  tree : Tree saved
  blocks : saved.blocks = function.blocks
  instructions : saved.instructions.Perm (instrStr :: function.instructions)
  semantic : ∀ ins, ins ≠ instrStr → ins ≠ instrLdr → saved.semantic ins = function.semantic ins
  str : saved.semantic instrStr = .isolated (bytesOf (binStr dualID))
  ldr : saved.semantic instrLdr = .isolated (bytesOf (binLdr dualID))

variable {dualID : CalleeSaved} {instrStr instrLdr : I} {frame frame' : FrameType I} {regbits : AARCH64RegBits}

theorem exists_saved (hfunction : WellFormed function frame) (hfresh : Fresh function instrStr instrLdr)
    {result : Function I B F × FrameType I} (h : saveAndRestore dualID instrStr instrLdr frame function = some result) :
    ∃ saved, Saved dualID instrStr instrLdr function saved ∧ result = frame.epilogueInstrs.foldl (restoreBefore instrLdr) (saved, frame) := by
  simp only [saveAndRestore, Option.bind_eq_bind, Option.bind_eq_some_iff, Option.pure_def, Option.some.injEq] at h
  obtain ⟨firstB, hB, firstI, hI, rfl⟩ := h
  refine ⟨_, ?_, rfl⟩
  have hchunk : firstB ∈ function.blocks := List.mem_of_head? hB
  have hindex : (function.children firstB).idxOf firstI + 1 ≤ (function.children firstB).length :=
    List.idxOf_lt_length_iff.2 (List.mem_of_head? hI)
  have hmade : Tree ((function.setSemantic instrStr (.isolated (bytesOf (binStr dualID)))).setSemantic instrLdr
      (.isolated (bytesOf (binLdr dualID)))) := ⟨hfunction.tree.nodup_blocks, hfunction.tree.nodup, hfunction.tree.parent⟩
  refine ⟨hmade.insertAt hchunk hindex hfresh.str_notMem, rfl, instructions_insertAt hmade.nodup_blocks hchunk hindex, ?_, ?_, ?_⟩
  · intro ins hstr hldr
    exact (Function.update_of_ne hldr _ _).trans (Function.update_of_ne hstr _ _)
  · exact (Function.update_of_ne hfresh.ne _ _).trans (Function.update_self _ _ _)
  · exact Function.update_self _ _ _

omit [DecidableEq I] [DecidableEq B] in
theorem nodup_getInstructionList (hfunction : Tree function) : (getInstructionList function).Nodup := hfunction.nodup.filter _

omit [DecidableEq I] [DecidableEq B] in
theorem mem_getInstructionList : ins ∈ getInstructionList function ↔ ins ∈ function.instructions ∧
    ((function.semantic ins).getAssembly.any fun assembly => mentions (wordOf assembly) regX) = true := List.mem_filter

/-- The function after the loop over the epilogues, and after the loop over the using instructions. -/
theorem exists_replaced (hfunction : WellFormed function frame) (hfresh : Fresh function instrStr instrLdr)
    (hrun : replacePerFunction dualID instrStr instrLdr frame (getInstructionList function) regbits function = some (function', frame')) :
    ∃ saved restored, Saved dualID instrStr instrLdr function saved ∧
      restored = (frame.epilogueInstrs.foldl (restoreBefore instrLdr) (saved, frame)).1 ∧
      Restoring instrLdr frame.epilogueInstrs saved restored ∧
      function' = { restored with semantic := fun ins =>
        if ins ∈ getInstructionList function then replacedSemantic dualID (restored.semantic ins) else restored.semantic ins } := by
  simp only [replacePerFunction, Option.bind_eq_bind, Option.bind_eq_some_iff] at hrun
  obtain ⟨⟨restored, frame₁⟩, hsave, hrun⟩ := hrun
  obtain ⟨saved, hsaved, hrestored⟩ := exists_saved hfunction hfresh hsave
  have hne : ∀ ins ∈ function.instructions, ins ≠ instrStr ∧ ins ≠ instrLdr := fun ins hins =>
    ⟨fun heq => hfresh.str_notMem (heq ▸ hins), fun heq => hfresh.ldr_notMem (heq ▸ hins)⟩
  have hrestoring := restoring_foldl hsaved.tree.nodup_blocks frame frame.epilogueInstrs fun ins hins => by
    have hmem := hfunction.mem_epilogueInstrs ins hins
    obtain ⟨b, hb, hchild⟩ := List.mem_flatMap.1 (hsaved.instructions.mem_iff.2 (List.mem_cons_of_mem _ hmem))
    exact ⟨(hne ins hmem).2, hsaved.tree.parent b hb ins hchild ▸ hb⟩
  rw [← hrestored] at hrestoring
  have hassembly : (getInstructionList function).any (fun ins => (restored.semantic ins).getAssembly.isNone) = false := by
    rw [List.any_eq_false]
    intro ins hins hnone
    obtain ⟨hmem, hmentions⟩ := mem_getInstructionList.1 hins
    rw [hrestoring.getAssembly, hsaved.semantic ins (hne ins hmem).1 (hne ins hmem).2, Option.isNone_iff_eq_none] at hnone
    rw [hnone] at hmentions
    cases hmentions
  simp only [hassembly, Bool.false_eq_true, if_false, Option.pure_def, Option.some.injEq, Prod.mk.injEq,
    foldl_replaceInstruction (nodup_getInstructionList hfunction.tree)] at hrun
  exact ⟨saved, restored, hsaved, congrArg Prod.fst hrestored, hrestoring, hrun.1.symm⟩

variable (frame) in
/-- The epilogue, the restore in front of it, and what else the loop does when there is one epilogue. -/
theorem restoreBefore_spec {saved : Function I B F} (hsaved : Tree saved) {e : I} (he : e ∈ saved.instructions)
    (hldr : instrLdr ∉ saved.instructions) : Tree (restoreBefore instrLdr (saved, frame) e).1 ∧
      ∃ b ∈ (restoreBefore instrLdr (saved, frame) e).1.blocks, ∃ A C,
        (restoreBefore instrLdr (saved, frame) e).1.children b = A ++ instrLdr :: e :: C := by
  obtain ⟨b, hb, hchild⟩ := List.mem_flatMap.1 he
  obtain ⟨A, C, hsplit, hA⟩ := List.eq_append_cons_of_mem hchild
  have hsame := sameCode_foldl_relink e instrLdr frame.jumpToEpilogueInstrs (saved.insertBefore b e instrLdr)
  have htree : Tree (saved.insertBefore b e instrLdr) := hsaved.insertAt hb List.idxOf_le_length hldr
  rw [restoreBefore, hsaved.parent b hb e hchild, fixEpilogue_fst]
  refine ⟨⟨?_, ?_, ?_⟩, b, ?_, A, C, ?_⟩
  · exact hsame.blocks ▸ htree.nodup_blocks
  · rw [Function.instructions, hsame.blocks, hsame.children]
    exact htree.nodup
  · rw [hsame.blocks, hsame.children, hsame.parent]
    exact htree.parent
  · rw [hsame.blocks]
    exact hb
  · rw [hsame.children]
    simp only [Function.insertBefore, Function.insertAt, Function.update_self]
    rw [hsplit, insertIdx_idxOf hA]

omit [DecidableEq I] in
theorem eq_singleton {e : I} {l : List I} (he : e ∈ l) (hl : l.length ≤ 1) : l = [e] := by
  obtain ⟨a, rfl⟩ := List.length_eq_one_iff.1 (Nat.le_antisymm hl (List.length_pos_of_mem he))
  rw [List.mem_singleton.1 he]

theorem getTarget_restoreBefore {saved : Function I B F} {e : I} (hne : instrLdr ≠ e) (ins : I) :
    ((restoreBefore instrLdr (saved, frame) e).1.semantic ins).getTarget =
      if ins ∈ frame.jumpToEpilogueInstrs ∧ (saved.semantic ins).getTarget = some e then some instrLdr
      else (saved.semantic ins).getTarget := by
  rw [restoreBefore, fixEpilogue_fst, getTarget_foldl_relink hne]
  rfl

/-- Each epilogue gets a restore of its own, where the jumps to it lead, and the register is gone, exactly in a function that
can be restored: the object of the restore is made once, for all epilogues. -/
theorem restored_iff (hfunction : WellFormed function frame) (hfresh : Fresh function instrStr instrLdr)
    (hrun : replacePerFunction dualID instrStr instrLdr frame (getInstructionList function) regbits function = some (function', frame')) :
    (∃ restore, Restored dualID function function' frame.epilogueInstrs restore) ↔ IsRestorable function frame := by
  obtain ⟨saved, restored, hsaved, hrestored, hrestoring, rfl⟩ := exists_replaced hfunction hfresh hrun
  have hne : ∀ ins ∈ function.instructions, ins ≠ instrStr ∧ ins ≠ instrLdr := fun ins hins =>
    ⟨fun heq => hfresh.str_notMem (heq ▸ hins), fun heq => hfresh.ldr_notMem (heq ▸ hins)⟩
  have hldr : instrLdr ∉ saved.instructions := by
    rw [hsaved.instructions.mem_iff, List.mem_cons, not_or]
    exact ⟨hfresh.ne.symm, hfresh.ldr_notMem⟩
  -- the using instructions are as replaceable as before
  have hreplaced : ∀ ins ∈ getInstructionList function, (∀ bytes, (replacedSemantic dualID (restored.semantic ins)).written = some bytes →
      mentions (wordOf bytes) regX = false) ↔ IsReplaceable (function.semantic ins) := by
    intro ins hins
    obtain ⟨hmem, hmentions⟩ := mem_getInstructionList.1 hins
    have hsemantic := hsaved.semantic ins (hne ins hmem).1 (hne ins hmem).2
    rw [written_replacedSemantic dualID (by rw [hrestoring.getAssembly, hsemantic]; exact hmentions), hrestoring.replaceable, hsemantic]
  have hget : ∀ ins, (if ins ∈ getInstructionList function then replacedSemantic dualID (restored.semantic ins)
      else restored.semantic ins).getTarget = (restored.semantic ins).getTarget := by
    intro ins
    split_ifs
    · exact getTarget_replacedSemantic dualID _
    · rfl
  constructor
  · rintro ⟨restore, h⟩
    have hlength : frame.epilogueInstrs.length ≤ 1 := by
      have hnodup := (hrestoring.instructions.nodup_iff.1 h.tree.nodup)
      exact List.nodup_replicate.1 (List.nodup_append.1 hnodup).1
    refine ⟨hlength, fun ins e he htarget => ?_, fun ins hins => (hreplaced ins hins).1 fun bytes hbytes => ?_⟩
    · by_contra hins
      have hmem := hfunction.mem_epilogueInstrs e he
      have hold : (saved.semantic ins).getTarget = some e := by
        rw [hsaved.semantic ins ?_ ?_, htarget]
        · rintro rfl
          rw [hfresh.getTarget_str] at htarget
          cases htarget
        · rintro rfl
          rw [hfresh.getTarget_ldr] at htarget
          cases htarget
      rw [eq_singleton he hlength, List.foldl_cons, List.foldl_nil] at hrestored
      have hnew := h.jumps ins e he htarget
      rw [hget, hrestored, getTarget_restoreBefore (hne e hmem).2.symm, if_neg fun h => hins (hfunction.mem_jumps ins h.1), hold,
        Option.some.injEq] at hnew
      exact (h.own e he).1 (hnew ▸ hmem)
    · refine h.replaced ins hins bytes ?_
      simp only [hins, if_true]
      exact hbytes
  · intro h
    have hnone : instrLdr ∉ getInstructionList function := fun hins => hfresh.ldr_notMem (mem_getInstructionList.1 hins).1
    have hcases : frame.epilogueInstrs = [] ∨ ∃ e, frame.epilogueInstrs = [e] := by
      rcases hlist : frame.epilogueInstrs with _ | ⟨e, rest⟩
      · exact Or.inl rfl
      · exact Or.inr ⟨e, hlist ▸ eq_singleton (hlist ▸ List.mem_cons_self) h.epilogueInstrs⟩
    have hlast : ∀ ins ∈ getInstructionList function, ∀ bytes,
        (if ins ∈ getInstructionList function then replacedSemantic dualID (restored.semantic ins) else restored.semantic ins).written =
          some bytes → mentions (wordOf bytes) regX = false := by
      intro ins hins bytes hbytes
      rw [if_pos hins] at hbytes
      exact (hreplaced ins hins).2 (h.replaceable ins hins) bytes hbytes
    refine ⟨fun _ => instrLdr, ?_⟩
    rcases hcases with hnil | ⟨e, hepilogue⟩
    · rw [hnil, List.foldl_nil] at hrestored
      subst hrestored
      rw [hnil]
      exact ⟨by simp, by simp, by simp, ⟨hsaved.tree.nodup_blocks, hsaved.tree.nodup, hsaved.tree.parent⟩, by simp, hlast⟩
    · have hmem := hfunction.mem_epilogueInstrs e (hepilogue ▸ List.mem_singleton_self e)
      rw [hepilogue, List.foldl_cons, List.foldl_nil] at hrestored
      obtain ⟨htree, b, hb, A, C, hchildren⟩ := restoreBefore_spec frame hsaved.tree
        (hsaved.instructions.mem_iff.2 (List.mem_cons_of_mem _ hmem)) hldr
      rw [← hrestored] at htree hb hchildren
      rw [hepilogue]
      refine ⟨?_, ?_, ?_, ⟨htree.nodup_blocks, htree.nodup, htree.parent⟩, ?_, hlast⟩
      · intro e' _
        refine ⟨hfresh.ldr_notMem, ?_⟩
        simp only [hnone, if_false]
        rw [hrestored, restoreBefore, fixEpilogue_fst,
          semantic_foldl_relink _ _ fun hins => hfresh.ldr_notMem (hfunction.mem_jumps _ hins)]
        exact hsaved.ldr
      · intro e₁ h₁ e₂ h₂ _
        exact (List.mem_singleton.1 h₁).trans (List.mem_singleton.1 h₂).symm
      · intro e' he'
        rw [List.mem_singleton.1 he']
        exact ⟨b, hb, A, C, hchildren⟩
      · intro ins e' he' htarget
        rw [List.mem_singleton.1 he'] at htarget
        have hins := h.jumps ins e (hepilogue ▸ List.mem_singleton_self e) htarget
        have hjump := hfunction.jumps ins hins e (hepilogue ▸ List.mem_singleton_self e) htarget
        rw [hget, hrestored, getTarget_restoreBefore (hne e hmem).2.symm, if_pos]
        exact ⟨hjump, by rw [hsaved.semantic ins (hne ins hins).1 (hne ins hins).2, htarget]⟩

omit [DecidableEq B] in
/-- The constructor of `FrameType` makes such lists. -/
theorem wellFormed_new [DecidableEq F] (h : Tree function) : WellFormed function (FrameType.new function) := by
  refine ⟨h, fun ins hins => (List.mem_filter.1 hins).1, fun ins hins => (List.mem_filter.1 hins).1, fun ins hins e he htarget => ?_⟩
  refine List.mem_filter.2 ⟨hins, ?_⟩
  rw [htarget, Option.any_some, decide_eq_true_eq]
  exact he

end

/-! ## A function with two returns -/

/-- `add x18, x18, #1` and `ret`, then another `ret`. -/
def sampleFunction : Function ℕ ℕ ℕ where
  name := 0
  blocks := [0, 1]
  children b := if b = 0 then [0, 1] else [2]
  parent ins := if ins = 2 then 1 else 0
  semantic ins := if ins = 0 then .isolated (bytesOf 0x91000652) else if ins = 1 ∨ ins = 2 then .returnInstruction (bytesOf 0xD65F03C0)
    else .literal

def x19 : CalleeSaved := ⟨19, by decide⟩

theorem wellFormed_sampleFunction : WellFormed sampleFunction (FrameType.new sampleFunction) :=
  wellFormed_new ⟨by decide, by decide, by decide⟩

theorem fresh_sampleFunction : Fresh sampleFunction 3 4 := ⟨by decide, by decide, by decide, rfl, rfl⟩

theorem isSome_sampleRun : (replacePerFunction x19 3 4 (FrameType.new sampleFunction) (getInstructionList sampleFunction)
    ⟨0, false, ⟨[], []⟩⟩ sampleFunction).isSome = true := by decide +kernel

theorem restored_iff_sampleFunction : ∃ function' frame', replacePerFunction x19 3 4 (FrameType.new sampleFunction)
      (getInstructionList sampleFunction) ⟨0, false, ⟨[], []⟩⟩ sampleFunction = some (function', frame') ∧
    ((∃ restore, Restored x19 sampleFunction function' (FrameType.new sampleFunction).epilogueInstrs restore) ↔
      IsRestorable sampleFunction (FrameType.new sampleFunction)) := by
  obtain ⟨⟨function', frame'⟩, hrun⟩ := Option.isSome_iff_exists.1 isSome_sampleRun
  exact ⟨function', frame', hrun, restored_iff wellFormed_sampleFunction fresh_sampleFunction hrun⟩

/-- The object of the restore is at two places. -/
theorem not_restored_sampleFunction : ∃ function' frame', replacePerFunction x19 3 4 (FrameType.new sampleFunction)
      (getInstructionList sampleFunction) ⟨0, false, ⟨[], []⟩⟩ sampleFunction = some (function', frame') ∧
    ¬ ∃ restore, Restored x19 sampleFunction function' (FrameType.new sampleFunction).epilogueInstrs restore := by
  obtain ⟨⟨function', frame'⟩, hrun⟩ := Option.isSome_iff_exists.1 isSome_sampleRun
  refine ⟨function', frame', hrun, ?_⟩
  rintro ⟨restore, h⟩
  obtain ⟨saved, restored, -, -, hrestoring, rfl⟩ := exists_replaced wellFormed_sampleFunction fresh_sampleFunction hrun
  have hnodup := List.nodup_append.1 (hrestoring.instructions.nodup_iff.1 h.tree.nodup)
  have hlength : (FrameType.new sampleFunction).epilogueInstrs.length ≤ 1 := List.nodup_replicate.1 hnodup.1
  exact absurd hlength (by decide)

end Egalito.Pass.RegReplace
