import Egalito.Analysis.Postorder
import Egalito.Lib.Ordered
/-!
# The call graph

`CallGraph` of `analysis/call.cpp`, a node for each function in the order of the
modules' lists and an edge for each direct call, and the functions that data
refers to, the `IndirectCalleeList`.
-/

open Relation Egalito.Lib

namespace Egalito.Analysis

variable {F : Type}

/-! ## The program -/

/-- The target of a link, as the casts to `Function` and `Instruction` tell it apart. For an
instruction it is the function that it is in. -/
inductive CallTarget (F : Type)
  | function (f : F)
  | instruction (parent : Option F)
  | other

/-- For a `PLTLink`, what the symbol of its trampoline is resolved to. -/
inductive CallLink (F : Type)
  | normal (target : CallTarget F)
  | plt (resolved : Option F)

structure CallInstr (F : Type) where
  controlFlow : Bool
  link : Option (CallLink F)

structure Dyn where
  tag : Nat
  val : BitVec 64

structure Reloc where
  addend : BitVec 64
  symbol : Option (BitVec 64)

/-- The functions of a module, the sections of its data with the links of their variables, and
what the ELF file has: the dynamic section and the relocations by address. -/
structure CallModule (F : Type) where
  functions : List F
  nodup : functions.Nodup
  dataSections : List (String × List (Option (CallLink F)))
  dynamic : Option (List Dyn)
  relocList : Option (BitVec 64 → Option Reloc)

structure CallProgram (F : Type) where
  modules : List (CallModule F)
  blocks : F → List (List (CallInstr F))
  hasName : F → String → Bool
  entryPoint : Option F

def CallProgram.functions (program : CallProgram F) : List F := program.modules.flatMap (·.functions)

/-- The target of a link as a `Function`. -/
def CallLink.function : CallLink F → Option F
  | .normal (.function f) => some f
  | _ => none

/-- The function that `makeDirectEdges` links to. -/
def CallInstr.callee (instr : CallInstr F) : Option F :=
  if instr.controlFlow then
    match instr.link with
    | some (.normal (.function f)) => some f
    | some (.plt resolved) => resolved
    | _ => none
  else none

def CallProgram.callees (program : CallProgram F) (f : F) : List F := (program.blocks f).flatten.filterMap (·.callee)

/-! ## The graph -/

/-- The function of each node, and the links of nodes by their target. -/
structure CallGraph (F : Type) where
  nodeList : List F
  downLinks : Nat → List Nat
  upLinks : Nat → List Nat

namespace CallGraph

variable [DecidableEq F]

/-- `mapping[function]`, which is zero for a function that is not in the map. -/
def getIDFor (graph : CallGraph F) (f : F) : Nat := (numbered graph.nodeList f).getD 0

def makeLinks (caller : F) (graph : CallGraph F) (callee : F) : CallGraph F :=
  let id := graph.getIDFor caller
  let targetId := graph.getIDFor callee
  { graph with
    downLinks := Function.update graph.downLinks id (graph.downLinks id ++ [targetId])
    upLinks := Function.update graph.upLinks targetId (graph.upLinks targetId ++ [id]) }

def makeDirectEdges (program : CallProgram F) (graph : CallGraph F) (f : F) : CallGraph F :=
  (program.callees f).foldl (makeLinks f) graph

def make (program : CallProgram F) : CallGraph F :=
  program.functions.foldl (makeDirectEdges program) ⟨program.functions, fun _ => [], fun _ => []⟩

/-! ## Its links -/

variable {program : CallProgram F} {graph : CallGraph F} {f g : F} {id n : Nat}

/-- One kind of link, with the other end of it. -/
def links (graph : CallGraph F) (dir : Int) : Nat → List Nat := if dir > 0 then graph.downLinks else graph.upLinks

/-- The edge of a call, in a direction. -/
def ends (graph : CallGraph F) (dir : Int) (caller callee : F) : Nat × Nat :=
  if dir > 0 then (graph.getIDFor caller, graph.getIDFor callee) else (graph.getIDFor callee, graph.getIDFor caller)

theorem mem_links_makeLinks {dir : Int} : n ∈ (makeLinks f graph g).links dir id ↔
    n ∈ graph.links dir id ∨ graph.ends dir f g = (id, n) := by
  unfold links ends makeLinks
  split
  · by_cases hid : id = graph.getIDFor f
    · simp [hid, eq_comm]
    · simp [hid, Ne.symm hid]
  · by_cases hid : id = graph.getIDFor g
    · simp [hid, eq_comm]
    · simp [hid, Ne.symm hid]

theorem makeDirectEdges_spec (l : List F) (graph : CallGraph F) (f : F) :
    (l.foldl (makeLinks f) graph).nodeList = graph.nodeList ∧
      ∀ dir id n, n ∈ (l.foldl (makeLinks f) graph).links dir id ↔
        n ∈ graph.links dir id ∨ ∃ g ∈ l, graph.ends dir f g = (id, n) := by
  induction l generalizing graph with
  | nil => simp
  | cons g l ih =>
    obtain ⟨hnodes, hlinks⟩ := ih (makeLinks f graph g)
    have hends : ∀ dir g', (makeLinks f graph g).ends dir f g' = graph.ends dir f g' := fun _ _ => rfl
    refine ⟨hnodes, fun dir id n => ?_⟩
    rw [List.foldl_cons, hlinks, mem_links_makeLinks, or_assoc]
    simp only [hends, List.mem_cons, exists_eq_or_imp]

theorem makeEdges_spec (l : List F) (graph : CallGraph F) :
    (l.foldl (makeDirectEdges program) graph).nodeList = graph.nodeList ∧
      ∀ dir id n, n ∈ (l.foldl (makeDirectEdges program) graph).links dir id ↔
        n ∈ graph.links dir id ∨ ∃ f ∈ l, ∃ g ∈ program.callees f, graph.ends dir f g = (id, n) := by
  induction l generalizing graph with
  | nil => simp
  | cons f l ih =>
    obtain ⟨hnodes₁, hlinks₁⟩ := makeDirectEdges_spec (program.callees f) graph f
    obtain ⟨hnodes, hlinks⟩ := ih (makeDirectEdges program graph f)
    have hends : ∀ dir f' g', (makeDirectEdges program graph f).ends dir f' g' = graph.ends dir f' g' := fun dir f' g' => by
      rw [ends, ends, getIDFor, getIDFor, makeDirectEdges, hnodes₁]
      rfl
    refine ⟨hnodes.trans hnodes₁, fun dir id n => ?_⟩
    rw [List.foldl_cons, hlinks, makeDirectEdges, hlinks₁, or_assoc]
    rw [makeDirectEdges] at hends
    simp only [hends, List.mem_cons, exists_eq_or_imp]

theorem nodeList_make (program : CallProgram F) : (make program).nodeList = program.functions :=
  (makeEdges_spec program.functions _).1

theorem mem_links_make {dir : Int} : n ∈ (make program).links dir id ↔
    ∃ f ∈ program.functions, ∃ g ∈ program.callees f, (make program).ends dir f g = (id, n) := by
  have hends : ∀ f g, (make program).ends dir f g =
      ends ⟨program.functions, fun _ => [], fun _ => []⟩ dir f g := fun f g => by
    rw [ends, ends, getIDFor, getIDFor, nodeList_make]
    rfl
  have hnone : n ∉ links (⟨program.functions, fun _ => [], fun _ => []⟩ : CallGraph F) dir id := by
    unfold links
    split <;> exact List.not_mem_nil
  simp only [hends]
  exact ((makeEdges_spec program.functions _).2 dir id n).trans (or_iff_right hnone)

/-- Every function has the number of a node, when there is one. -/
theorem getIDFor_lt (h : program.functions ≠ []) (f : F) : (make program).getIDFor f < program.functions.length := by
  rw [getIDFor, nodeList_make]
  cases hn : numbered program.functions f with
  | none => exact List.length_pos_of_ne_nil h
  | some i => exact (List.getElem?_eq_some_iff.1 (getElem?_of_numbered hn)).1

/-- The function of the node that a function is mapped to. -/
theorem nodeList_getIDFor (hf : f ∈ program.functions) : (make program).nodeList[(make program).getIDFor f]? = some f := by
  rw [getIDFor, nodeList_make]
  cases hn : numbered program.functions f with
  | none => exact absurd hf (numbered_eq_none.1 hn)
  | some i => exact getElem?_of_numbered hn

theorem getIDFor_injOn (hf : f ∈ program.functions) (hg : g ∈ program.functions)
    (h : (make program).getIDFor f = (make program).getIDFor g) : f = g := by
  have hf := nodeList_getIDFor hf
  rw [h, nodeList_getIDFor hg] at hf
  exact (Option.some.inj hf).symm

end CallGraph

/-- The call graph as its walkers see it. -/
def callGraph [DecidableEq F] (program : CallProgram F) : Graph where
  count := program.functions.length
  links dir id := (CallGraph.make program).links dir id
  links_lt dir id _ n hn := by
    obtain ⟨f, hf, g, -, hends⟩ := CallGraph.mem_links_make.1 hn
    have hne := List.ne_nil_of_mem hf
    unfold CallGraph.ends at hends
    split at hends
    · obtain ⟨-, rfl⟩ := Prod.mk.inj hends
      exact CallGraph.getIDFor_lt hne g
    · obtain ⟨-, rfl⟩ := Prod.mk.inj hends
      exact CallGraph.getIDFor_lt hne f

/-! ## Calls between functions -/

section Calls

variable {program : CallProgram F} {f g : F}

/-- Direct calls, one after the other. -/
def CallProgram.Calls (program : CallProgram F) : F → F → Prop := ReflTransGen fun f g => g ∈ program.callees f

variable [DecidableEq F]

theorem edge_callGraph {id n : Nat} : (callGraph program).Edge 1 id n ↔ ∃ f ∈ program.functions,
    ∃ g ∈ program.callees f, (CallGraph.make program).getIDFor f = id ∧ (CallGraph.make program).getIDFor g = n := by
  rw [Graph.Edge]
  simp only [callGraph, CallGraph.mem_links_make, CallGraph.ends, zero_lt_one, gt_iff_lt, if_true, Prod.mk.injEq]

/-- Where only functions of the lists are called, the nodes that a node reaches are those of the
functions that its function calls. -/
theorem reach_iff_calls (hlisted : ∀ g, program.Calls f g → g ∈ program.functions) {n : Nat} :
    ReflTransGen ((callGraph program).Edge 1) ((CallGraph.make program).getIDFor f) n ↔
      ∃ g, program.Calls f g ∧ (CallGraph.make program).getIDFor g = n := by
  constructor
  · intro h
    induction h with
    | refl => exact ⟨f, .refl, rfl⟩
    | tail _ hedge ih =>
      obtain ⟨g, hg, rfl⟩ := ih
      obtain ⟨g', hg', c, hc, heq, rfl⟩ := edge_callGraph.1 hedge
      obtain rfl := CallGraph.getIDFor_injOn hg' (hlisted g hg) heq
      exact ⟨c, hg.tail hc, rfl⟩
  · rintro ⟨g, hg, rfl⟩
    induction hg with
    | refl => exact .refl
    | tail hg hc ih => exact ih.tail (edge_callGraph.2 ⟨_, hlisted _ hg, _, hc, rfl, rfl⟩)

end Calls

/-! ## `IndirectCalleeList` -/

/-- The functions that the variables of a section refer to. -/
def indirectCalleesOf : String × List (Option (CallLink F)) → Option (List F)
  | (name, vars) => if name ≠ ".got.plt" then (vars.mapM id).map (·.filterMap (·.function)) else some []

/-- `makeList`, in the order of insertion; a variable without a link is a null pointer that is read. -/
def CallModule.indirectCallees (module : CallModule F) : Option (List F) :=
  (module.dataSections.mapM indirectCalleesOf).map List.flatten

end Egalito.Analysis
