import Egalito.IntervalTree.Range
import Egalito.Lib.Scan
/-!
# The interval tree

`IntervalTreeNode` and `IntervalTree` of `util/intervaltree.cpp`. A node covers
`totalRange` and keeps the ranges around its midpoint in two sorted lists; the
others go to the sub-node of their half, which is made when first needed.

`add` recurses into nodes it has just made, so its recursion is bounded here by
`fuel`, and `none` stands for running out of it (or for a failed assertion).
`remove` and the lookups recurse on the tree itself.
-/

namespace Egalito.IntervalTree

open Egalito.Lib

/-- A pointer to a node; `null` is `nullptr`. -/
inductive Node where
  | null
  | node (totalRange : Range) (midpoint : Address) (lower higher : Node)
      (overlapStart overlapEnd : List Range)
deriving DecidableEq, Repr

namespace Node

/-- The constructor `IntervalTreeNode(Range)`. -/
def make (totalRange : Range) : Node :=
  node totalRange (totalRange.start + totalRange.size / 2) null null [] []

/-- `std::sort` of `overlapStart`. -/
def sortStart (l : List Range) : List Range := l.insertionSort (fun a b => b.lt a = false)

/-- `std::sort` of `overlapEnd`, with its own comparison. -/
def sortEnd (l : List Range) : List Range := l.insertionSort (fun a b => b.endGt a = false)

/-- The sub-node for a half, made if it is not there yet. -/
def subNode (sub : Node) (start end_ : Address) : Option Node :=
  if sub = null then (Range.fromEndpoints start end_).map make else some sub

def add : Nat → Node → Range → Option (Node × Bool)
  | 0, _, _ => none
  | _ + 1, null, _ => none
  | fuel + 1, node total mid lower higher os oe, range =>
    if !total.containsRange range then some (node total mid lower higher os oe, false)
    else if range.endsBefore mid then do
      let lower ← subNode lower total.start mid
      let (lower, result) ← add fuel lower range
      return (node total mid lower higher os oe, result)
    else if range.contains mid then
      some (node total mid lower higher (sortStart (os ++ [range])) (sortEnd (oe ++ [range])), true)
    else do
      let higher ← subNode higher mid total.getEnd
      let (higher, result) ← add fuel higher range
      return (node total mid lower higher os oe, result)

/-- `none` when the assertion on `removed1` and `removed2` fails. -/
def remove : Node → Range → Option (Node × Bool)
  | null, _ => some (null, false)
  | node total mid lower higher os oe, range =>
    if range.endsBefore mid then do
      let (lower, result) ← remove lower range
      return (node total mid lower higher os oe, result)
    else if Range.startsAfter mid range then do
      let (higher, result) ← remove higher range
      return (node total mid lower higher os oe, result)
    else
      let removed1 := os.contains range
      let removed2 := oe.contains range
      if (removed1 && removed2) || (!removed1 && !removed2) then
        some (node total mid lower higher (os.erase range) (oe.erase range), removed1 && removed2)
      else none

/-- `findOverlapping(address_t, found)`: what it appends to `found`. -/
def findOverlapping (point : Address) : Node → List Range
  | null => []
  | node _ mid lower higher os oe =>
    (if point < mid then
      lower.findOverlapping point ++ scanUntil (·.contains point) (Range.startsAfter point ·) os else []) ++
    (if point ≥ mid then
      scanUntil (·.contains point) (·.endsBefore point) oe ++ higher.findOverlapping point else [])

/-- `findOverlapping(Range, found)`: what it appends to `found`. -/
def findOverlappingRange (range : Range) : Node → List Range
  | null => []
  | node _ mid lower higher os _ =>
    let searchHigher := !range.endsBefore mid
    let searchLower := !(Range.startsAfter mid range || mid == range.start)
    (if searchLower then lower.findOverlappingRange range else []) ++
      os.filter (·.overlaps range) ++
      (if searchHigher then higher.findOverlappingRange range else [])

/-- `inStartOrderTraversal`: the stored ranges, in the order it visits them. -/
def inStartOrderTraversal : Node → List Range
  | null => []
  | node _ _ lower higher os _ => lower.inStartOrderTraversal ++ os ++ higher.inStartOrderTraversal

end Node

/-! ## The tree, and runs of calls on it -/

/-- `IntervalTree(Range)`: its root node. -/
abbrev make (bounds : Range) : Node := Node.make bounds

/-- Recursion depth that suffices for `add`: 64 halvings, and the last call. -/
def addDepth : Nat := 65

inductive Op where
  | add (range : Range)
  | remove (range : Range)

def Op.range : Op → Range
  | add r => r
  | remove r => r

def exec (tree : Node) : Op → Option (Node × Bool)
  | .add r => tree.add addDepth r
  | .remove r => tree.remove r

/-- Run the calls in order; the results, and the tree afterwards. -/
def run (tree : Node) : List Op → Option (Node × List Bool)
  | [] => some (tree, [])
  | op :: ops => do
    let (tree, result) ← exec tree op
    let (tree, results) ← run tree ops
    return (tree, result :: results)

/-- In every node, both overlap lists hold the same ranges. -/
def ListsAgree : Node → Prop
  | .null => True
  | .node _ _ lower higher os oe => os.Perm oe ∧ ListsAgree lower ∧ ListsAgree higher

/-! ## What the tree is for -/

/-- A bag of ranges inside some bounds: the abstract store. -/
structure Store where
  bounds : Range
  ranges : List Range

namespace Store
open Classical

/-- A range is kept if all its addresses are addresses of the bounds. -/
noncomputable def exec (s : Store) : Op → Store × Bool
  | .add r => if r.addresses ⊆ s.bounds.addresses then ({ s with ranges := r :: s.ranges }, true) else (s, false)
  | .remove r => ({ s with ranges := s.ranges.erase r }, decide (r ∈ s.ranges))

noncomputable def run (s : Store) : List Op → Store × List Bool
  | [] => (s, [])
  | op :: ops => ((run (s.exec op).1 ops).1, (s.exec op).2 :: (run (s.exec op).1 ops).2)

end Store

end Egalito.IntervalTree
