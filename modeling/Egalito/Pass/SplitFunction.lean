import Egalito.Analysis.PreorderGroups
import Mathlib
/-!
# `SplitFunction`

The pass of `pass/splitfunction.cpp` and `splitFunctionBefore` of
`operation/mutator.cpp`, with the positions as offsets. The positions are objects
that are made and deleted. What `NonReturnFunction` sets are marks, kept apart
from the chunks here; the graphs of the functions depend on them.
-/

open Relation Egalito.Lib Egalito.Analysis

namespace Egalito.SplitFunction

/-! ## Chunks -/

/-- The id is `getSemantic()->getAssembly()->getId()`; a literal has no assembly. -/
structure Instruction where
  size : Nat
  assemblyId : Option Nat
deriving DecidableEq

/-- A block, the pointer to its position, and the offset that is stored there. The instructions follow each other
from its address. -/
structure Block where
  id : Nat
  instructions : List Instruction
  position : Nat
  offset : Nat
deriving DecidableEq

structure Function where
  address : Nat
  size : Nat
  blocks : List Block
  symbol : Bool
deriving DecidableEq

def Block.getSize (b : Block) : Nat := (b.instructions.map (·.size)).sum

/-- The positions that exist. -/
structure Memory where
  live : Finset Nat
  next : Nat

structure State (μ : Type) where
  functions : List Function
  memory : Memory
  marks : μ

/-- `ControlFlowGraph(function)`: a node for each block, and links that depend on the marks. -/
structure ControlFlow (μ : Type) where
  graph : μ → Function → Graph
  count_eq : ∀ marks f, (graph marks f).count = f.blocks.length

/-! ## The mutator -/

section Mutator

-- what a `delete` of a position does that has been deleted before
variable (dangling : Memory → Nat → Option Memory)

def Memory.delete (m : Memory) (position : Nat) : Option Memory :=
  if position ∈ m.live then some { m with live := m.live.erase position } else dangling m position

/-- `positionFactory->makePosition` -/
def Memory.makePosition (m : Memory) : Nat × Memory := (m.next, ⟨insert m.next m.live, m.next + 1⟩)

/-- `OffsetPosition::recalculate`, from the first child to the last. -/
def recalculate : Nat → List Block → List Block
  | _, [] => []
  | offset, b :: blocks => { b with offset } :: recalculate (offset + b.getSize) blocks

/-- `ChunkMutator(function).remove(child)`. The destructor refreshes the positions. -/
def remove (function : Function) (child : Block) : Option Function :=
  let blocks := recalculate 0 (function.blocks.eraseP (·.id == child.id))
  if function.size = 0 then some { function with blocks }
  else if child.getSize ≤ function.size then
    some { function with blocks, size := function.size - child.getSize }
  else none

/-- `ChunkMutator(function2).append(child)`, likewise. -/
def append (function2 : Function) (child : Block) : Function :=
  { function2 with
    blocks := recalculate 0 (function2.blocks ++ [child])
    size := function2.size + child.getSize }

/-- The first loop over the `moveList`. -/
def removeAll (moveList : List Block) : Function × Memory → Option (Function × Memory) :=
  moveList.foldlM fun (function, m) child => do
    let function ← remove function child
    return (function, ← m.delete dangling child.position)

/-- The second loop. The children still have the positions that the first one has deleted. -/
def appendAll (moveList : List Block) : Function × Memory → Option (Function × Memory) :=
  moveList.foldlM fun (function2, m) child => do
    let m ← m.delete dangling child.position
    let (position, m) := m.makePosition
    return (append function2 { child with position, offset := function2.size }, m)

variable {μ : Type}

/-- `ChunkMutator(f).splitFunctionBefore(point)`; the function is the parent of the block. -/
def splitFunctionBefore (s : State μ) (point : Nat) : Option (State μ) := do
  let index ← s.functions.findIdx? fun f => f.blocks.any (·.id == point)
  let function ← s.functions[index]?
  let moveList := function.blocks.dropWhile (·.id != point)
  let first ← moveList.head?
  let function2 : Function := ⟨function.address + first.offset, 0, [], false⟩
  let (function, memory) ← removeAll dangling moveList (function, s.memory)
  let (function2, memory) ← appendAll dangling moveList (function2, memory)
  return { s with functions := s.functions.set index function ++ [function2], memory }

end Mutator

/-! ## The pass -/

section Pass

variable {μ : Type} (dangling : Memory → Nat → Option Memory) (cfg : ControlFlow μ) (nop : Nat)
  (nonReturnPass : List Function → μ → μ)

/-- Whether a group is a single block with a single instruction, and this one a `nop`. Without an instruction or an
assembly a null pointer is used. -/
def isSingleNop (group : List Nat) (b : Block) : Option Bool :=
  match b.instructions with
  | [] => none
  | [instr] => if group.length = 1 then instr.assemblyId.map (· == nop) else some false
  | _ => some false

/-- The body of the loop over the groups. -/
def splitPoint (f : Function) (group : List Nat) : Option (Option Nat) := do
  let block ← f.blocks[← group.head?]?
  return if ← isSingleNop nop group block then none else some block.id

/-- `visit(function)`: the split points, from the last group to the second. -/
def visit (graph : Graph) (f : Function) : Option (List Nat) :=
  if f.symbol then some []
  else do
    let v ← preorderFull graph graph.count
    return (← v.tail.reverse.mapM (splitPoint nop f)).reduceOption

/-- `recurse(functionList)` -/
def splitPoints (s : State μ) : Option (List Nat) := do
  return (← s.functions.mapM fun f => visit nop (cfg.graph s.marks f) f).flatten

/-- `visit(functionList)`. The fuel is for the `do` loop. -/
def visitList : Nat → State μ → Option (State μ)
  | 0, _ => none
  | fuel + 1, s => do
    let points ← splitPoints cfg nop s
    let s ← points.foldlM (splitFunctionBefore dangling) s
    if points.isEmpty then return s
    else visitList fuel { s with marks := nonReturnPass s.functions s.marks }

end Pass

/-! ## What is claimed -/

/-- The blocks with their addresses. -/
def Function.placed (f : Function) : List (Nat × Nat × List Instruction) :=
  f.blocks.map fun b => (b.id, f.address + b.offset, b.instructions)

/-- A function without a symbol: it has blocks, that stand one behind the other, and its size is theirs. -/
structure Function.WellFormed (f : Function) : Prop where
  symbol : f.symbol = false
  nonempty : f.blocks ≠ []
  size : f.size = (f.blocks.map (·.getSize)).sum
  offsets : recalculate 0 f.blocks = f.blocks

/-- A function list without symbols. -/
structure FunctionList where
  functions : List Function
  wellFormed : ∀ f ∈ functions, f.WellFormed
  once : ((functions.flatMap (·.blocks)).map (·.id)).Nodup

/-- Every block with its instructions is in one of the functions, in the order and with the address that it had. -/
structure Kept (before after : List Function) : Prop where
  all : (after.flatMap Function.placed).Perm (before.flatMap Function.placed)
  order : ∀ f' ∈ after, ∃ f ∈ before, f'.placed <:+: f.placed

def Block.IsNop (nop : Nat) (b : Block) : Prop := ∃ instr, b.instructions = [instr] ∧ instr.assemblyId = some nop

/-- Every block is reached from the first one, or is a group by itself that is a single `nop`. -/
def Function.Reached (graph : Graph) (nop : Nat) (f : Function) : Prop :=
  ∀ k < f.blocks.length, ReflTransGen (graph.Edge 1) 0 k ∨
    ∃ groups b, preorderFull graph graph.count = some groups ∧ [k] ∈ groups ∧ f.blocks[k]? = some b ∧ b.IsNop nop

section Claim

variable {μ : Type} (dangling : Memory → Nat → Option Memory) (cfg : ControlFlow μ) (nop : Nat)
  (nonReturnPass : List Function → μ → μ)

/-- The pass ends, and leaves functions that are as they should be. -/
def Splits (list : FunctionList) (memory : Memory) (marks : μ) : Prop :=
  ∃ fuel s, visitList dangling cfg nop nonReturnPass fuel ⟨list.functions, memory, marks⟩ = some s ∧
    Kept list.functions s.functions ∧ ∀ f ∈ s.functions, f.size = (f.blocks.map (·.getSize)).sum ∧
      f.Reached (cfg.graph s.marks f) nop

/-- Every group but the first one is a single `nop`. -/
def NoSplit (graph : Graph) (f : Function) : Prop :=
  ∀ groups, preorderFull graph graph.count = some groups → ∀ group ∈ groups.tail,
    ∃ k b, group = [k] ∧ f.blocks[k]? = some b ∧ b.IsNop nop

end Claim

/-! ## Where `SplitFunction` is right

`splitFunctionBefore` deletes the position of every block that it moves twice: the
pointer is not cleared after the first time. So the pass can only be relied on
where it finds nothing to split, and there it leaves the functions as they are.
-/

/-! ## What is deleted twice -/

/-- Where deleting twice stops the program, what has been removed no longer has a position. -/
theorem removeAll_deleted {moveList : List Block} {f f' : Function} {m m' : Memory}
    (h : removeAll (fun _ _ => none) moveList (f, m) = some (f', m')) :
    m'.live ⊆ m.live ∧ ∀ child ∈ moveList, child.position ∉ m'.live := by
  induction moveList generalizing f m with
  | nil =>
    cases h
    exact ⟨subset_rfl, by simp⟩
  | cons child rest ih =>
    simp only [removeAll, List.foldlM_cons, Option.bind_eq_bind, Option.bind_eq_some_iff, Option.pure_def,
      Option.some.injEq] at h
    obtain ⟨⟨f₁, m₁⟩, ⟨f₂, -, m₂, hdelete, heq⟩, hrest⟩ := h
    cases heq
    obtain ⟨hsub, hrest⟩ := ih hrest
    have hlive : m₁.live = m.live.erase child.position := by
      unfold Memory.delete at hdelete
      split at hdelete
      · cases hdelete
        rfl
      · cases hdelete
    refine ⟨hsub.trans (hlive ▸ Finset.erase_subset ..), List.forall_mem_cons.2 ⟨fun hin => ?_, hrest⟩⟩
    have hin' := hsub hin
    rw [hlive] at hin'
    exact Finset.notMem_erase _ _ hin'

theorem splitFunctionBefore_stops {μ : Type} (s : State μ) (point : Nat) :
    splitFunctionBefore (fun _ _ => none) s point = none := by
  rw [Option.eq_none_iff_forall_ne_some]
  intro s' h
  simp only [splitFunctionBefore, Option.bind_eq_bind, Option.bind_eq_some_iff] at h
  obtain ⟨index, -, f, -, first, hfirst, ⟨f₁, m₁⟩, hremove, ⟨f₂, m₂⟩, happend, -⟩ := h
  obtain ⟨rest, hlist⟩ := List.head?_eq_some_iff.1 hfirst
  have hdead := (removeAll_deleted hremove).2 first (by rw [hlist]; exact List.mem_cons_self)
  simp only [hlist, appendAll, List.foldlM_cons, Memory.delete, if_neg hdead, Option.bind_eq_bind, Option.bind_none] at happend
  cases happend

/-! ## Functions without a split -/

variable {graph : Graph} {nop : Nat} {f : Function}

theorem splitPoint_eq_none_iff {group : List Nat} : splitPoint nop f group = some none ↔
    ∃ k rest b, group = k :: rest ∧ f.blocks[k]? = some b ∧ isSingleNop nop group b = some true := by
  simp only [splitPoint, Option.bind_eq_bind, Option.bind_eq_some_iff, Option.pure_def, Option.some.injEq,
    ite_eq_left_iff, reduceCtorEq, imp_false, Bool.not_eq_true, Bool.not_eq_false, exists_eq_right, List.head?_eq_some_iff]
  constructor
  · rintro ⟨k, ⟨rest, rfl⟩, b, hb, hnop⟩
    exact ⟨k, rest, b, rfl, hb, by simpa using hnop⟩
  · rintro ⟨k, rest, b, rfl, hb, hnop⟩
    exact ⟨k, ⟨rest, rfl⟩, b, hb, by simpa using hnop⟩

theorem isSingleNop_iff {k : Nat} {rest : List Nat} {b : Block} :
    isSingleNop nop (k :: rest) b = some true ↔ rest = [] ∧ b.IsNop nop := by
  unfold isSingleNop Block.IsNop
  rcases b.instructions with _ | ⟨instr, _ | ⟨instr', instrs⟩⟩
  · simp
  · cases rest <;> simp
  · simp

theorem reduceOption_eq_nil_iff {α : Type} {l : List (Option α)} : l.reduceOption = [] ↔ ∀ o ∈ l, o = none := by
  rw [List.reduceOption, List.filterMap_eq_nil_iff]
  rfl

/-- `visit` finds nothing just where no group has to be split off. -/
theorem visit_eq_nil_iff (hsymbol : f.symbol = false) (hcount : 0 < graph.count) :
    visit nop graph f = some [] ↔ NoSplit nop graph f := by
  obtain ⟨groups, hgroups, -⟩ := preorderFull_spec graph hcount le_rfl
  have hpoint (group : List Nat) : splitPoint nop f group = some none ↔
      ∃ k b, group = [k] ∧ f.blocks[k]? = some b ∧ b.IsNop nop := by
    rw [splitPoint_eq_none_iff]
    constructor
    · rintro ⟨k, rest, b, rfl, hb, hsingle⟩
      obtain ⟨rfl, hnop⟩ := isSingleNop_iff.1 hsingle
      exact ⟨k, b, rfl, hb, hnop⟩
    · rintro ⟨k, b, rfl, hb, hnop⟩
      exact ⟨k, [], b, rfl, hb, isSingleNop_iff.2 ⟨rfl, hnop⟩⟩
  have hvisit : visit nop graph f = some [] ↔ ∀ group ∈ groups.tail, splitPoint nop f group = some none := by
    simp only [visit, hsymbol, Bool.false_eq_true, if_false, hgroups, Option.bind_eq_bind, Option.bind_some,
      Option.bind_eq_some_iff, Option.pure_def, Option.some.injEq, mapM_eq_some_iff]
    constructor
    · rintro ⟨points, hpoints, hnil⟩ group hgroup
      obtain ⟨o, ho, hsplit⟩ := exists_right_of_forall₂ hpoints group (List.mem_reverse.2 hgroup)
      rw [hsplit, reduceOption_eq_nil_iff.1 hnil o ho]
    · intro h
      refine ⟨groups.tail.reverse.map fun _ => none, ?_, reduceOption_eq_nil_iff.2 (by simp)⟩
      exact List.forall₂_map_right_iff.2 (List.forall₂_same.2 fun group hgroup => h group (List.mem_reverse.1 hgroup))
  rw [hvisit]
  constructor
  · intro h groups' hgroups' group hgroup
    obtain rfl := Option.some.inj (hgroups.symm.trans hgroups')
    exact (hpoint group).1 (h group hgroup)
  · intro h group hgroup
    exact (hpoint group).2 (h groups hgroups group hgroup)

/-- Without a split, every block is reached or a `nop` by itself. -/
theorem NoSplit.reached (h : NoSplit nop graph f) (hcount : graph.count = f.blocks.length)
    (hpos : 0 < graph.count) : f.Reached graph nop := by
  intro k hk
  obtain ⟨groups, hgroups, hparted⟩ := preorderFull_spec graph hpos le_rfl
  obtain ⟨first, rest, rfl, hfirst⟩ := hparted.first
  have hmem : k ∈ (first :: rest).flatten := (hparted.mem_iff k).2 (decide_eq_true (hcount ▸ hk))
  rcases List.mem_append.1 (List.flatten_cons ▸ hmem) with hin | hin
  · exact .inl ((hfirst k).1 hin)
  · obtain ⟨group, hgroup, hkgroup⟩ := List.mem_flatten.1 hin
    obtain ⟨k', b, rfl, hb, hnop⟩ := h _ hgroups group hgroup
    obtain rfl := List.mem_singleton.1 hkgroup
    exact .inr ⟨_, b, hgroups, List.mem_cons_of_mem _ hgroup, hb, hnop⟩

theorem Kept.refl (functions : List Function) : Kept functions functions :=
  ⟨List.Perm.refl _, fun f hf => ⟨f, hf, List.infix_rfl⟩⟩

/-! ## The pass -/

variable {μ : Type}

theorem FunctionList.count_pos (list : FunctionList) (cfg : ControlFlow μ) (marks : μ) (hf : f ∈ list.functions) :
    0 < (cfg.graph marks f).count := by
  rw [cfg.count_eq]
  exact List.length_pos_iff.2 (list.wellFormed f hf).nonempty

theorem splitPoints_eq_nil_iff {cfg : ControlFlow μ} {s : State μ} : splitPoints cfg nop s = some [] ↔
    ∀ f ∈ s.functions, visit nop (cfg.graph s.marks f) f = some [] := by
  simp only [splitPoints, Option.bind_eq_bind, Option.bind_eq_some_iff, Option.pure_def, Option.some.injEq,
    mapM_eq_some_iff]
  constructor
  · rintro ⟨points, hpoints, hnil⟩ f hf
    obtain ⟨l, hl, hvisit⟩ := exists_right_of_forall₂ hpoints f hf
    rw [hvisit, List.flatten_eq_nil_iff.1 hnil l hl]
  · intro h
    refine ⟨s.functions.map fun _ => [], ?_, List.flatten_eq_nil_iff.2 (by simp)⟩
    exact List.forall₂_map_right_iff.2 (List.forall₂_same.2 h)

/-- Whatever a second `delete` does, the pass ends with functions that are as they should be, just when there is
nothing to split in the list it starts with. -/
theorem splits_iff (cfg : ControlFlow μ) (nop : Nat) (nonReturnPass : List Function → μ → μ) (list : FunctionList)
    (memory : Memory) (marks : μ) : (∀ dangling, Splits dangling cfg nop nonReturnPass list memory marks) ↔
      ∀ f ∈ list.functions, NoSplit nop (cfg.graph marks f) f := by
  have hpoints : splitPoints cfg nop ⟨list.functions, memory, marks⟩ = some [] ↔
      ∀ f ∈ list.functions, NoSplit nop (cfg.graph marks f) f := by
    rw [splitPoints_eq_nil_iff]
    exact forall₂_congr fun f hf => visit_eq_nil_iff (list.wellFormed f hf).symbol (list.count_pos cfg marks hf)
  constructor
  · intro h
    obtain ⟨fuel, s, hrun, -⟩ := h fun _ _ => none
    cases fuel with
    | zero => cases hrun
    | succ fuel =>
      simp only [visitList, Option.bind_eq_bind, Option.bind_eq_some_iff] at hrun
      obtain ⟨points, hsome, s', hsplit, -⟩ := hrun
      cases points with
      | nil => exact hpoints.1 hsome
      | cons point points =>
        rw [List.foldlM_cons, splitFunctionBefore_stops] at hsplit
        cases hsplit
  · intro h dangling
    refine ⟨1, ⟨list.functions, memory, marks⟩, ?_, .refl _, fun f hf => ⟨(list.wellFormed f hf).size, ?_⟩⟩
    · rw [visitList, hpoints.2 h]
      rfl
    · exact (h f hf).reached (cfg.count_eq marks f) (list.count_pos cfg marks hf)

/-! ## A function behind a return -/

/-- Two blocks that each end with a return, 8 bytes from the address `0x1000` on. -/
def twoReturns : FunctionList where
  functions := [⟨0x1000, 8, [⟨0, [⟨4, some 1⟩], 0, 0⟩, ⟨1, [⟨4, some 1⟩], 1, 4⟩], false⟩]
  wellFormed f hf := by
    obtain rfl := List.mem_singleton.1 hf
    exact ⟨rfl, List.cons_ne_nil _ _, rfl, rfl⟩
  once := by decide

/-- A return has no links. -/
def withoutLinks : ControlFlow Unit where
  graph _ f := ⟨f.blocks.length, fun _ _ => [], by simp⟩
  count_eq _ _ := rfl

theorem twoReturns_not_split : ∃ dangling : Memory → Nat → Option Memory,
    ¬ Splits dangling withoutLinks 0 (fun _ marks => marks) twoReturns ⟨{0, 1}, 2⟩ () := by
  refine ⟨fun _ _ => none, ?_⟩
  rintro ⟨fuel, s, hrun, -⟩
  cases fuel with
  | zero => cases hrun
  | succ fuel =>
    have hpoints : splitPoints withoutLinks 0 ⟨twoReturns.functions, ⟨{0, 1}, 2⟩, ()⟩ = some [1] := rfl
    rw [visitList, hpoints] at hrun
    simp only [Option.bind_eq_bind, Option.bind_some, List.foldlM_cons, splitFunctionBefore_stops] at hrun
    cases hrun

end Egalito.SplitFunction
