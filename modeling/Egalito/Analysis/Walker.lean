import Mathlib.Tactic
/-!
# Walks over a graph

The depth-first search of `analysis/walker.h` with what it calls on the way, a
`Collector`, and the two collectors of that file: `NodeCollection` writes down
the order of the nodes, `SccCollection` the strongly connected components. The
stacks are given from the top, and a vector indexed by nodes as a function.
-/

namespace Egalito.Analysis

/-- `GraphBase`; the links of a node in a direction, by their target. -/
structure Graph where
  count : Nat
  links : Int → Nat → List Nat
  links_lt : ∀ dir id, id < count → ∀ n ∈ links dir id, n < count

/-- The functions that a `DFSWalkerBase` calls on `derived()`; `none` is a pointer that leaves
its vector. -/
structure Collector (σ : Type) where
  reset : σ → σ
  tick : σ → σ
  preVisit : Nat → σ → σ
  postVisit : Nat → σ → Option σ
  lateVisit : Nat → Nat → σ → σ
  finish : σ → σ

/-! ## The walk -/

section Walk

variable {σ : Type} (graph : Graph) (collector : Collector σ) (dir : Int)

/-- The state of a walk: `visited` and the state of the collector. `none` is a recursion
deeper than the fuel. -/
def walkHelper : Nat → Nat → (Nat → Bool) × σ → Option ((Nat → Bool) × σ)
  | 0, _, _ => none
  | fuel + 1, id, (visited, s) => do
    let (visited, s) ← (graph.links dir id).foldlM
      (fun st n => if !st.1 n then walkHelper fuel n st else some (st.1, collector.lateVisit id n st.2))
      (Function.update visited id true, collector.preVisit id s)
    return (visited, ← collector.postVisit id s)

def walk (fuel : Nat) (id : Nat) (s : σ) : Option σ := do
  let (_, s) ← walkHelper graph collector dir fuel id (fun _ => false, collector.reset s)
  return collector.finish s

/-- The loop over the other nodes starts at one. -/
def walkAll (fuel : Nat) (id : Nat) (s : σ) : Option σ := do
  let st ← walkHelper graph collector dir fuel id (fun _ => false, collector.reset s)
  let (_, s) ← (List.range' 1 (graph.count - 1)).foldlM
    (fun st i => if !st.1 i then walkHelper graph collector dir fuel i (st.1, collector.tick st.2) else some st) st
  return collector.finish s

end Walk

/-! ## `NodeCollection` -/

inductive VisitType
  | preorder
  | postorder
  | prePostorder
deriving DecidableEq

structure NodeCollection where
  order : List (List Nat)
  lap : Nat

/-- `VisitType().preVisit`. -/
def VisitType.preVisit (visit : VisitType) (id : Nat) (order : List Nat) : List Nat :=
  if visit = .postorder then order else order ++ [id]

def VisitType.postVisit (visit : VisitType) (id : Nat) (order : List Nat) : List Nat :=
  if visit = .preorder then order else order ++ [id]

/-- With `reverse`, the finisher is the `ReverseFinisher`. -/
def nodeCollection (visit : VisitType) (reverse : Bool) : Collector NodeCollection where
  reset _ := ⟨[[]], 0⟩
  tick s := ⟨s.order ++ [[]], s.lap + 1⟩
  preVisit id s := { s with order := s.order.modify s.lap (visit.preVisit id) }
  postVisit id s := some { s with order := s.order.modify s.lap (visit.postVisit id) }
  lateVisit _ _ s := s
  finish s := { s with order := if reverse then s.order.map List.reverse else s.order }

/-! ## `SccCollection` -/

structure SccCollection where
  scc : Nat
  disc : Nat
  discovery : Nat → Nat
  lowLink : Nat → Nat
  onStack : Nat → Bool
  stack : List Nat
  poStack : List Nat
  sccOrder : List (List Nat)

namespace SccCollection

def empty : SccCollection := ⟨0, 0, fun _ => 0, fun _ => 0, fun _ => false, [], [], []⟩

def reset (s : SccCollection) : SccCollection := { s with scc := 0, disc := 0, sccOrder := [[]] }

def preVisit (id : Nat) (s : SccCollection) : SccCollection :=
  { s with
    discovery := Function.update s.discovery id s.disc
    lowLink := Function.update s.lowLink id s.disc
    stack := id :: s.stack
    onStack := Function.update s.onStack id true
    disc := s.disc + 1 }

def lateVisit (fromId n : Nat) (s : SccCollection) : SccCollection :=
  if s.onStack n then
    { s with lowLink := Function.update s.lowLink fromId (min (s.lowLink fromId) (s.discovery n)) }
  else s

/-- The first loop of `postVisit`, over the links of the node. -/
def lowerLink (discovery : Nat → Nat) (id : Nat) (lowLink : Nat → Nat) (n : Nat) : Nat → Nat :=
  if discovery id < discovery n then Function.update lowLink id (min (lowLink id) (lowLink n)) else lowLink

/-- The second loop takes one node off both stacks, until the node is found on the first.
It gives the nodes taken off `poStack`, what is left of the stacks, and `onStack`. -/
def popUntil (id : Nat) : List Nat → List Nat → (Nat → Bool) → Option (List Nat × List Nat × List Nat × (Nat → Bool))
  | x :: stack, y :: poStack, onStack =>
    let onStack := Function.update onStack x false
    if x = id then some ([y], stack, poStack, onStack)
    else do
      let (taken, stack, poStack, onStack) ← popUntil id stack poStack onStack
      return (y :: taken, stack, poStack, onStack)
  | _, _, _ => none

/-- The component is appended in the order of the vector and then reversed. -/
def postVisit (links : List Nat) (id : Nat) (s : SccCollection) : Option SccCollection := do
  let s := { s with
    lowLink := links.foldl (lowerLink s.discovery id) s.lowLink
    poStack := id :: s.poStack }
  if s.discovery id = s.lowLink id then
    let (taken, stack, poStack, onStack) ← popUntil id s.stack s.poStack s.onStack
    return { s with
      stack := stack
      poStack := poStack
      onStack := onStack
      sccOrder := s.sccOrder.modify s.scc (fun order => (order ++ taken.reverse).reverse) ++ [[]]
      scc := s.scc + 1 }
  else return s

end SccCollection

/-- `SccOrder` for the direction 1, `ReverseSccOrder` for the direction -1. -/
def sccCollection (graph : Graph) (dir : Int) : Collector SccCollection where
  reset := SccCollection.reset
  tick s := s
  preVisit := SccCollection.preVisit
  postVisit id := SccCollection.postVisit (graph.links dir id) id
  lateVisit := SccCollection.lateVisit
  finish s := { s with sccOrder := s.sccOrder.dropLast.reverse }

/-- `order.gen(0)` and `order.genFull(0)`, then `order.get()`. -/
def sccOrder (graph : Graph) (dir : Int) (full : Bool) (fuel : Nat) : Option (List (List Nat)) := do
  let walker := if full then walkAll graph (sccCollection graph dir) dir else walk graph (sccCollection graph dir) dir
  return (← walker fuel 0 .empty).sccOrder

/-- The same for a `ReversePostorder` or a `ReverseReversePostorder`. -/
def reversePostorder (graph : Graph) (dir : Int) (full : Bool) (fuel : Nat) : Option (List (List Nat)) := do
  let collector := nodeCollection .postorder true
  let walker := if full then walkAll graph collector dir else walk graph collector dir
  return (← walker fuel 0 ⟨[], 0⟩).order

end Egalito.Analysis
