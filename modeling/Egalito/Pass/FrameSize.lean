import Egalito.Analysis.SlicingTree
import Egalito.Analysis.TreePattern
import Mathlib
/-!
# The frame size at an instruction

`getStackOffset`, `getCurrentFrameSize` and the loop of `extendStack` in
`pass/stackextend.cpp`, on the use-def graph of a function that moves its stack
pointer by pushes and constants. The search follows one definition at a time, and
takes additions for subtractions.
-/

open Egalito.Analysis

namespace Egalito.FrameSize

abbrev Word := BitVec 64

/-! ## Instructions -/

/-- `X86Register::SP` and `X86Register::FLAGS`. -/
def SP : Int := 4
def FLAGS : Int := 16

/-- What can stand in such a function. A memory operand is `disp(%rsp)`; other instructions are given by what
their handlers record. -/
inductive Insn where
  | push (reg : Int)
  | sub (imm : Word)
  | add (imm : Word)
  | load (width : Nat) (disp : Word) (reg : Int)
  | lea (disp : Word) (reg : Int)
  | store (reg : Int) (disp : Word)
  | addLoad (width : Nat) (disp : Word) (reg : Int)
  | compare (disp : Word) (reg : Int)
  | storeImmediate (imm disp : Word)
  | other (regDefs memDefs : DefList)

namespace Insn

def rspTree : TreeNode := .physicalRegister SP 8

/-- `UseDef::makeMemTree`, with `rsp` as the base and without an index. -/
def makeMemTree (disp : Word) : TreeNode :=
  if disp ≠ 0 then .binary .addition rspTree (.constant disp) else rspTree

/-- The register definitions of `fillPush`, `fillAddOrSubOrShift`, `fillMov`, `fillLea` and `fillCmp`. -/
def getRegDefList : Insn → DefList
  | push _ => [(SP, some (.binary .subtraction rspTree (.constant 8)))]
  | sub imm => [(SP, some (.binary .subtraction rspTree (.constant imm)))]
  | add imm => [(SP, some (.binary .addition rspTree (.constant imm)))]
  | load width disp reg => [(reg, some (.unary (.dereference width) (makeMemTree disp)))]
  | lea disp reg => [(reg, some (makeMemTree disp))]
  | store _ _ => []
  | addLoad width disp reg =>
    [(reg, some (.binary .addition (.physicalRegister reg 8) (.unary (.dereference width) (makeMemTree disp))))]
  | compare _ _ => [(FLAGS, none)]
  | storeImmediate _ _ => []
  | other regDefs _ => regDefs

def getMemDefList : Insn → DefList
  | push reg => [(reg, some (.binary .subtraction rspTree (.constant 8)))]
  | store reg disp => [(reg, some (makeMemTree disp))]
  | other _ memDefs => memDefs
  | _ => []

def isLea : Insn → Bool
  | lea _ _ => true
  | _ => false

def isAdd : Insn → Bool
  | add _ => true
  | _ => false

/-- The constant of a definition of the stack pointer. -/
def constant : Insn → Word
  | push _ => 8
  | sub imm | add imm => imm
  | _ => 0

/-- Push, and the addition and the subtraction of a constant. -/
def MovesStack : Insn → Prop
  | push _ | sub _ | add _ => True
  | _ => False

/-- What the instruction makes of the stack pointer. -/
def moveStack : Insn → Word → Word
  | push _, rsp => rsp - 8
  | sub imm, rsp => rsp - imm
  | add imm, rsp => rsp + imm
  | _, rsp => rsp

/-- The displacement of an access through `rsp`. -/
def displacement? : Insn → Option Word
  | load _ disp _ | lea disp _ | store _ disp | addLoad _ disp _ | compare disp _ | storeImmediate _ disp => some disp
  | _ => none

end Insn

/-! ## The pass -/

/-- `StackAccessForm1` and `StackAccessForm2`. -/
def stackAccessForm (type : BinaryClass) : TreePattern :=
  .binary type (.physicalRegisterIs SP) (.capture (.terminal .constant))

/-- `StackDerefForm1` and `StackDerefForm2`. -/
def stackDerefForm (type : BinaryClass) : TreePattern := .unary .dereference (stackAccessForm type)

/-- `dynamic_cast<TreeNodeConstant *>(cap.get(0))->getValue()` -/
def getValue (cap : TreeCapture) : Word := (cap.head?.bind TreeNode.constant?).getD 0

/-- The body of the first loop of `getStackOffset`; the two captures are used twice each. -/
def offsetOfRegDef (isLea : Bool) (tree : TreeNode) : Option Word :=
  match (stackDerefForm .addition).matches tree [] with
  | (true, cap1) => some (getValue cap1)
  | (false, cap1) =>
    match (stackDerefForm .subtraction).matches tree [] with
    | (true, cap2) => some (getValue cap2)
    | (false, cap2) =>
      match (stackAccessForm .addition).matches tree cap1 with
      | (true, cap1) => some (if isLea then getValue cap1 else 0)
      | (false, _) =>
        match (stackAccessForm .subtraction).matches tree cap2 with
        | (true, cap2) => some (if isLea then getValue cap2 else 0)
        | (false, _) => none

/-- The body of the second loop. -/
def offsetOfMemDef (tree : TreeNode) : Option Word :=
  match (stackAccessForm .addition).matches tree [] with
  | (true, cap1) => some (getValue cap1)
  | (false, _) =>
    match (stackAccessForm .subtraction).matches tree [] with
    | (true, cap2) => some (getValue cap2)
    | (false, _) => none

/-- `none` is `(false, 0)`. No form matches a null tree. -/
def getStackOffset (instruction : Insn) : Option Word :=
  (instruction.getRegDefList.findSome? fun (_, tree) => tree.bind (offsetOfRegDef instruction.isLea)).or
    (instruction.getMemDefList.findSome? fun (_, tree) => tree.bind offsetOfMemDef)

/-- The use-def graph of a function whose definitions of `rsp` that are referenced move it by constants. -/
structure StackGraph (State : Type) extends UseDefGraph State where
  instruction : State → Insn
  defs : ∀ s, getRegDefList s = (instruction s).getRegDefList
  moves : ∀ s, ∀ t ∈ getRegRef s SP, (instruction t).MovesStack

/-- The variables of `getCurrentFrameSize`. -/
structure Search (State : Type) where
  state : State
  searching : Bool
  size : Word

/-- The lambda of `getCurrentFrameSize`. -/
def Search.action {State : Type} (search : Search State) (s : State) (cap : TreeCapture) : Bool × Search State :=
  (true, ⟨s, true, search.size + getValue cap⟩)

namespace StackGraph

variable {State : Type} (graph : StackGraph State)

/-- The loop of `FlowUtil::searchUpDef` over the states that are referenced. -/
def searchUpDef {σ : Type} (pattern : TreePattern) (reg : Int) (fn : σ → State → TreeCapture → Bool × σ) :
    List State → σ → σ
  | [], a => a
  | s :: rest, a =>
    match graph.getRegDef s reg with
    | none => searchUpDef pattern reg fn rest a
    | some tree =>
      match pattern.matches tree [] with
      | (false, _) => searchUpDef pattern reg fn rest a
      | (true, cap) =>
        match fn a s cap with
        | (true, a) => a
        | (false, a) => searchUpDef pattern reg fn rest a

/-- One round of the `do` loop. -/
def round (search : Search State) : Search State :=
  let search := { search with searching := false }
  let search' := graph.searchUpDef (stackAccessForm .addition) SP Search.action (graph.getRegRef search.state SP) search
  if search'.searching then search'
  else
    graph.searchUpDef (stackAccessForm .subtraction) SP Search.action (graph.getRegRef search'.state SP) search'

def searchLoop : Nat → Search State → Option Word
  | 0, _ => none
  | fuel + 1, search =>
    let search := graph.round search
    if search.searching then searchLoop fuel search else some search.size

/-- `none` is a loop that has not ended within the fuel. -/
def getCurrentFrameSize (fuel : Nat) (state : State) : Option Word := graph.searchLoop fuel ⟨state, true, 0⟩

/-- Whether `extendStack` calls `adjustOffset` for the instruction. -/
def adjusts (fuel : Nat) (state : State) : Option Bool :=
  if (graph.getRegDef state SP).isSome then some false
  else
    match getStackOffset (graph.instruction state) with
    | none => some false
    | some offset => (graph.getCurrentFrameSize fuel state).map fun frameSize => decide (frameSize ≤ offset)

/-! ## Chains -/

/-- The instructions that move the stack pointer, in the order of execution, on a way from the entry, where no
definition is referenced, to a state. -/
inductive Chain : State → List Insn → Prop
  | entry {s} (h : graph.getRegRef s SP = []) : Chain s []
  | move {s t moves} (h : t ∈ graph.getRegRef s SP) (hmoves : Chain t moves) :
    Chain s (moves ++ [graph.instruction t])

/-- How many bytes the stack pointer lies below its value at the entry. -/
def below (moves : List Insn) (rsp : Word) : Word := rsp - moves.foldl (fun rsp i => i.moveStack rsp) rsp

/-- Whether the frame size is the depth on every chain, and an access is adjusted just when it is not below the
value of the stack pointer at the entry. -/
def Adjusts (state : State) : Prop :=
  ∀ moves, graph.Chain state moves → ∀ rsp, ∃ fuel, graph.getCurrentFrameSize fuel state = some (below moves rsp) ∧
    ∀ disp, (graph.instruction state).displacement? = some disp →
      graph.adjusts fuel state = some ((below moves rsp).sle disp)

/-! ## What the search follows -/

/-- The definition that is taken among those referenced: the first addition, or else the first one. -/
def chosen (state : State) : Option State :=
  ((graph.getRegRef state SP).find? fun t => (graph.instruction t).isAdd).or (graph.getRegRef state SP).head?

/-- The chain of the definitions taken. It ends at the entry. -/
inductive Followed : State → List Insn → Prop
  | entry {s} (h : graph.chosen s = none) : Followed s []
  | move {s t moves} (h : graph.chosen s = some t) (hmoves : Followed t moves) :
    Followed s (moves ++ [graph.instruction t])

end StackGraph

/-- The constants of the additions. -/
def added (moves : List Insn) : Word := ((moves.filter Insn.isAdd).map Insn.constant).sum

/-- The constants of the subtractions, the pushes included, less those of the additions. -/
def depth (moves : List Insn) : Word := ((moves.filter (!·.isAdd)).map Insn.constant).sum - added moves

/-- The accesses that `getStackOffset` gives for one, in an instruction that leaves `rsp` as it is. -/
def Insn.Found : Insn → Prop
  | load _ disp reg | lea disp reg => disp ≠ 0 ∧ reg ≠ SP
  | store _ disp => disp ≠ 0
  | _ => False

/-- Whether the unsigned comparison of the frame size with the displacement is right: both have the same sign. An
access that is not found has to lie below the value at the entry. -/
def Insn.Compares (access : Insn) (size disp : Word) : Prop :=
  (access.Found → size.msb = disp.msb) ∧ (¬ access.Found → size.sle disp = false)

/-! ## The forms -/

namespace Insn

/-- The tree that a push or a constant leaves for the stack pointer. -/
def stackTree (i : Insn) : TreeNode :=
  .binary (if i.isAdd then .addition else .subtraction) rspTree (.constant i.constant)

theorem matches_addition (i : Insn) : (stackAccessForm .addition).matches i.stackTree [] =
    (i.isAdd, if i.isAdd then [.constant i.constant] else []) := by
  unfold stackTree
  cases i.isAdd <;> rfl

theorem matches_subtraction (i : Insn) : (stackAccessForm .subtraction).matches i.stackTree [] =
    (!i.isAdd, if i.isAdd then [] else [.constant i.constant]) := by
  unfold stackTree
  cases i.isAdd <;> rfl

theorem lookup_stackTree {i : Insn} (h : i.MovesStack) : (i.getRegDefList.lookup SP).join = some i.stackTree := by
  cases i with
  | push reg => rfl
  | sub imm => rfl
  | add imm => rfl
  | _ => exact h.elim

theorem offset_address {isLea : Bool} (disp : Word) (h : disp ≠ 0) :
    offsetOfRegDef isLea (makeMemTree disp) = some (if isLea then disp else 0) := by
  rw [makeMemTree, if_pos h]
  rfl

theorem offset_dereference {isLea : Bool} {width : Nat} (disp : Word) (h : disp ≠ 0) :
    offsetOfRegDef isLea (.unary (.dereference width) (makeMemTree disp)) = some disp := by
  rw [makeMemTree, if_pos h]
  rfl

/-- The right operand of such a sum is no constant. -/
theorem offset_sum {reg : Int} {width : Nat} {tree : TreeNode} :
    offsetOfRegDef false (.binary .addition (.physicalRegister reg 8) (.unary (.dereference width) tree)) = none := by
  simp [offsetOfRegDef, stackDerefForm, stackAccessForm, TreePattern.«matches», TreeNode.child?, TreeNode.operands?,
    Matching.test, Matching.and, TreeNode.physicalRegister?, BinaryNode.isA, BinaryNode.getClass]
  cases reg == SP <;> rfl

/-- An access is found with its displacement, or not at all. -/
theorem offset_of_access {i : Insn} {disp : Word} (h : i.displacement? = some disp)
    (hrsp : (i.getRegDefList.lookup SP).join = none) :
    (i.Found → getStackOffset i = some disp) ∧ (¬ i.Found → getStackOffset i = none) := by
  have hne {reg : Int} {tree : TreeNode} (h : (([(reg, some tree)] : DefList).lookup SP).join = none) : reg ≠ SP := by
    rintro rfl
    simp at h
  cases i with
  | load width d reg =>
    cases h
    have hreg := hne hrsp
    refine ⟨fun hd => by simp [getStackOffset, getRegDefList, isLea, offset_dereference _ hd.1], fun hd => ?_⟩
    obtain rfl : disp = 0 := by_contra fun h0 => hd ⟨h0, hreg⟩
    rfl
  | lea d reg =>
    cases h
    have hreg := hne hrsp
    refine ⟨fun hd => by simp [getStackOffset, getRegDefList, isLea, offset_address _ hd.1], fun hd => ?_⟩
    obtain rfl : disp = 0 := by_contra fun h0 => hd ⟨h0, hreg⟩
    rfl
  | store reg d =>
    cases h
    refine ⟨fun hd => ?_, fun hd => ?_⟩
    · simp only [getStackOffset, getRegDefList, getMemDefList, makeMemTree, if_pos (show disp ≠ 0 from hd)]
      rfl
    · obtain rfl : disp = 0 := not_not.1 hd
      rfl
  | addLoad width d reg =>
    cases h
    refine ⟨False.elim, fun _ => ?_⟩
    simp [getStackOffset, getRegDefList, getMemDefList, isLea, offset_sum]
  | compare d reg => exact ⟨False.elim, fun _ => rfl⟩
  | storeImmediate imm d => exact ⟨False.elim, fun _ => rfl⟩
  | _ => cases h

theorem not_found_of_defines {i : Insn} {tree : TreeNode} {disp : Word} (h : i.displacement? = some disp)
    (hrsp : (i.getRegDefList.lookup SP).join = some tree) : ¬ i.Found := by
  have heq {reg : Int} {t : TreeNode} (h : (([(reg, some t)] : DefList).lookup SP).join = some tree) : reg = SP := by
    by_contra hne
    rw [List.lookup_cons, beq_false_of_ne (Ne.symm hne)] at h
    cases h
  intro hd
  cases i with
  | load width d reg => exact hd.2 (heq hrsp)
  | lea d reg => exact hd.2 (heq hrsp)
  | store reg d => cases hrsp
  | _ => exact hd

end Insn

/-! ## The search -/

namespace StackGraph

variable {State : Type} {graph : StackGraph State}

theorem getRegDef_eq (s : State) : graph.getRegDef s SP = ((graph.instruction s).getRegDefList.lookup SP).join := by
  rw [UseDefGraph.getRegDef, graph.defs]

/-- One form finds the first definition of its kind. -/
theorem searchUpDef_action (kind : Bool) (search : Search State) {refs : List State}
    (hrefs : ∀ t ∈ refs, (graph.instruction t).MovesStack) :
    graph.searchUpDef (stackAccessForm (if kind then .addition else .subtraction)) SP Search.action refs search =
      match refs.find? fun t => (graph.instruction t).isAdd == kind with
      | none => search
      | some t => ⟨t, true, search.size + (graph.instruction t).constant⟩ := by
  induction refs with
  | nil => rfl
  | cons t rest ih =>
    have ih := ih fun x hx => hrefs x (List.mem_cons_of_mem _ hx)
    have hdef := Insn.lookup_stackTree (hrefs t List.mem_cons_self)
    rw [searchUpDef, getRegDef_eq, hdef]
    cases kind with
    | true =>
      simp only [if_true, Insn.matches_addition] at ih ⊢
      cases hadd : (graph.instruction t).isAdd with
      | true => simp [hadd, Search.action, getValue, TreeNode.constant?]
      | false => simpa [hadd] using ih
    | false =>
      simp only [Bool.false_eq_true, if_false, Insn.matches_subtraction] at ih ⊢
      cases hadd : (graph.instruction t).isAdd with
      | true => simpa [hadd] using ih
      | false => simp [hadd, Search.action, getValue, TreeNode.constant?]

theorem round_eq (search : Search State) : graph.round search =
    match graph.chosen search.state with
    | none => { search with searching := false }
    | some t => ⟨t, true, search.size + (graph.instruction t).constant⟩ := by
  have hmoves := graph.moves search.state
  have hadd := searchUpDef_action true ⟨search.state, false, search.size⟩ hmoves
  have hsub := searchUpDef_action false ⟨search.state, false, search.size⟩ hmoves
  simp only [if_true, Bool.false_eq_true, if_false, beq_true] at hadd hsub
  simp only [round, chosen, hadd]
  cases hfind : (graph.getRegRef search.state SP).find? fun t => (graph.instruction t).isAdd with
  | some t => rfl
  | none =>
    -- without an addition every definition is of the second form
    have hhead : ((graph.getRegRef search.state SP).find? fun t => (graph.instruction t).isAdd == false) =
        (graph.getRegRef search.state SP).head? := by
      rw [List.find?_eq_none] at hfind
      cases hrefs : graph.getRegRef search.state SP with
      | nil => rfl
      | cons t rest => simp [by simpa using hfind t (hrefs ▸ List.mem_cons_self)]
    simp only [hsub, hhead, Option.none_or]
    rfl

theorem chosen_eq_none_iff {s : State} : graph.chosen s = none ↔ graph.getRegRef s SP = [] := by
  simp only [chosen, Option.or_eq_none_iff, List.head?_eq_none_iff, and_iff_right_iff_imp]
  intro h
  rw [h, List.find?_nil]

theorem chosen_mem {s t : State} (h : graph.chosen s = some t) : t ∈ graph.getRegRef s SP := by
  rcases Option.or_eq_some_iff.1 h with h | ⟨-, h⟩
  · exact List.mem_of_find?_eq_some h
  · exact List.mem_of_head? h

theorem Followed.chain {s : State} {moves : List Insn} (h : graph.Followed s moves) : graph.Chain s moves := by
  induction h with
  | entry h => exact .entry (chosen_eq_none_iff.1 h)
  | move h _ ih => exact .move (chosen_mem h) ih

theorem Chain.movesStack {s : State} {moves : List Insn} (h : graph.Chain s moves) : ∀ i ∈ moves, i.MovesStack := by
  induction h with
  | entry h => simp
  | move h _ ih =>
    intro i hi
    rcases List.mem_append.1 hi with hi | hi
    · exact ih i hi
    · rw [List.mem_singleton.1 hi]
      exact graph.moves _ _ h

theorem Followed.unique {s : State} {moves moves' : List Insn} (h : graph.Followed s moves)
    (h' : graph.Followed s moves') : moves = moves' := by
  induction h generalizing moves' with
  | entry h =>
    cases h' with
    | entry => rfl
    | move h' => rw [h] at h'; cases h'
  | move h _ ih =>
    cases h' with
    | entry h' => rw [h] at h'; cases h'
    | move h' hmoves' =>
      rw [h] at h'
      cases h'
      rw [ih hmoves']

/-- All constants, whatever is done with them. -/
def total (moves : List Insn) : Word := (moves.map Insn.constant).sum

/-- The search ends just where the definitions that it takes lead to the entry, with the sum of their constants. -/
theorem searchLoop_iff {search : Search State} {size : Word} :
    (∃ fuel, graph.searchLoop fuel search = some size) ↔
      ∃ moves, graph.Followed search.state moves ∧ size = search.size + total moves := by
  constructor
  · rintro ⟨fuel, h⟩
    induction fuel generalizing search with
    | zero => cases h
    | succ fuel ih =>
      rw [searchLoop, round_eq] at h
      cases hchosen : graph.chosen search.state with
      | none =>
        simp only [hchosen, Bool.false_eq_true, if_false, Option.some.injEq] at h
        exact ⟨[], .entry hchosen, by simp [total, h]⟩
      | some t =>
        simp only [hchosen, if_true] at h
        obtain ⟨moves, hmoves, hsize⟩ := ih h
        refine ⟨_, .move hchosen hmoves, ?_⟩
        rw [hsize, total, total, List.map_append, List.sum_append, List.map_singleton, List.sum_singleton]
        ring
  · rintro ⟨moves, hmoves, rfl⟩
    obtain ⟨s, searching, n⟩ := search
    simp only at hmoves
    induction hmoves generalizing searching n with
    | entry h => exact ⟨1, by simp [searchLoop, round_eq, h, total]⟩
    | @move s t moves h _ ih =>
      obtain ⟨fuel, hfuel⟩ := ih true (n + (graph.instruction t).constant)
      refine ⟨fuel + 1, ?_⟩
      simp only [searchLoop, round_eq, h, if_true, hfuel, total, List.map_append, List.sum_append,
        List.map_singleton, List.sum_singleton]
      ring_nf

theorem getCurrentFrameSize_iff {state : State} {size : Word} :
    (∃ fuel, graph.getCurrentFrameSize fuel state = some size) ↔
      ∃ moves, graph.Followed state moves ∧ size = total moves := by
  have h := @searchLoop_iff State graph ⟨state, true, 0⟩ size
  simp only [zero_add] at h
  exact h

/-! ## The depth -/

theorem total_eq (moves : List Insn) : total moves = depth moves + (added moves + added moves) := by
  have h : total moves = ((moves.filter (!·.isAdd)).map Insn.constant).sum + added moves := by
    unfold added
    induction moves with
    | nil => rfl
    | cons i moves ih =>
      rw [total, List.map_cons, List.sum_cons, ← total, ih]
      cases hadd : i.isAdd <;> simp only [List.filter_cons, hadd, Bool.not_true, Bool.not_false, if_true,
        Bool.false_eq_true, if_false, List.map_cons, List.sum_cons] <;> ring
  rw [h, depth]
  ring

theorem below_eq {moves : List Insn} (h : ∀ i ∈ moves, i.MovesStack) (rsp : Word) : below moves rsp = depth moves := by
  have hstep (i : Insn) (hi : i.MovesStack) (rsp : Word) :
      i.moveStack rsp = if i.isAdd then rsp + i.constant else rsp - i.constant := by
    cases i <;> first | rfl | exact hi.elim
  have hrun : ∀ rsp, moves.foldl (fun rsp i => i.moveStack rsp) rsp = rsp - depth moves := by
    induction moves with
    | nil => simp [depth, added]
    | cons i moves ih =>
      intro rsp
      rw [List.foldl_cons, ih fun x hx => h x (List.mem_cons_of_mem _ hx), hstep i (h i List.mem_cons_self)]
      unfold depth added
      cases hadd : i.isAdd <;> simp only [List.filter_cons, hadd, Bool.not_true, Bool.not_false, if_true,
        Bool.false_eq_true, if_false, List.map_cons, List.sum_cons] <;> ring
  rw [below, hrun]
  ring

/-! ## The accesses -/

theorem le_eq_sle_iff {size disp : Word} : decide (size ≤ disp) = size.sle disp ↔ size.msb = disp.msb := by
  have h : decide (size ≤ disp) = size.ule disp := rfl
  rw [h, BitVec.sle_eq_ule]
  cases size.msb <;> cases disp.msb <;> cases size.ule disp <;> simp

/-- What `extendStack` does with an access, once the frame size is known. -/
theorem adjusts_eq {state : State} {fuel : Nat} {size disp : Word}
    (hsize : graph.getCurrentFrameSize fuel state = some size)
    (hdisp : (graph.instruction state).displacement? = some disp) :
    graph.adjusts fuel state = some (size.sle disp) ↔ (graph.instruction state).Compares size disp := by
  rw [adjusts, getRegDef_eq, Insn.Compares]
  cases hrsp : ((graph.instruction state).getRegDefList.lookup SP).join with
  | some tree =>
    have hnot := Insn.not_found_of_defines hdisp hrsp
    simp only [hnot, Option.isSome_some, if_true, Option.some.injEq, false_implies, not_false_eq_true, true_implies, true_and]
    exact eq_comm
  | none =>
    obtain ⟨hfound, hnot⟩ := Insn.offset_of_access hdisp hrsp
    by_cases h : (graph.instruction state).Found
    · rw [hfound h, ← le_eq_sle_iff]
      simp only [h, hsize, Option.isSome_none, Bool.false_eq_true, if_false, Option.map_some, Option.some.injEq,
        not_true_eq_false, false_implies, true_implies, and_true]
    · rw [hnot h]
      simp only [h, Option.isSome_none, Bool.false_eq_true, if_false, Option.some.injEq, false_implies,
        not_false_eq_true, true_implies, true_and]
      exact eq_comm

local instance neZero_three : NeZero 3 := ⟨by decide⟩

/-- `sub $16, %rsp`, `add $16, %rsp`, and the load of an argument of the caller. -/
def balanced : StackGraph (Fin 3) where
  instruction := ![.sub 16, .add 16, .load 8 8 0]
  getRegDefList s := (![Insn.sub 16, .add 16, .load 8 8 0] s).getRegDefList
  getRegRef s reg := if reg = SP then (![[], [0], [1]] : Fin 3 → List (Fin 3)) s else []
  getRegUse s reg := if reg = SP then (![[1], [2], []] : Fin 3 → List (Fin 3)) s else []
  defs _ := rfl
  moves := by
    intro s t ht
    fin_cases s
    · cases ht
    · obtain rfl : t = 0 := by simpa using ht
      trivial
    · obtain rfl : t = 1 := by simpa using ht
      trivial

end StackGraph

end Egalito.FrameSize
