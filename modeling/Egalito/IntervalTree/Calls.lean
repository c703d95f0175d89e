import Egalito.IntervalTree.Invariants
import Egalito.Lib.Run
/-!
# Calls on the interval tree

The rest of `util/intervaltree.cpp` that the tree offers: `splitAt`, `subtract`
and the lookups of a bound. Every call on a tree ends but `add` of a range inside
the bounds that is empty or wraps: no midpoint is inside such a range, so `add`
goes from sub-node to sub-node.
-/

open Egalito.Lib

namespace Egalito.IntervalTree

/-! ## The calls -/

namespace Node

/-- The lookups of a lower bound look at `overlapEnd` from its back. -/
def lowerBound (found : Range → Bool) (point : Address) : Node → Option Range
  | null => none
  | node _ mid lower higher _ oe =>
    (if point ≥ mid then higher.lowerBound found point else none) <|>
      oe.reverse.find? found <|> lower.lowerBound found point

def findLowerBound (point : Address) : Node → Option Range :=
  lowerBound (·.endsBefore point) point

def findLowerBoundOrOverlapping (point : Address) : Node → Option Range :=
  lowerBound (fun r => r.endsBefore point || r.contains point) point

def upperBound (found : Range → Bool) (point : Address) : Node → Option Range
  | null => none
  | node _ mid lower higher os _ =>
    (if point < mid then lower.upperBound found point else none) <|>
      os.find? found <|> higher.upperBound found point

def findUpperBound (point : Address) : Node → Option Range :=
  upperBound (Range.startsAfter point ·) point

def findUpperBoundOrOverlapping (point : Address) : Node → Option Range :=
  upperBound (fun r => Range.startsAfter point r || r.contains point) point

section Fuel

variable (fuel : Nat)

/-- `add(Range::fromEndpoints(start, end))`, without its result. -/
def addBetween (tree : Node) (start end_ : Address) : Option Node := do
  return (← tree.add fuel (← Range.fromEndpoints start end_)).1

def splitAt (tree : Node) (point : Address) : Option (Node × Bool) := do
  if !(← tree.totalRange?).contains point then return (tree, false)
  match tree.findOverlapping point with
  | [r] =>
    if point != r.start && point != r.getEnd then
      let (tree, _) ← tree.remove r
      let tree ← tree.addBetween fuel r.start point
      return (← tree.addBetween fuel point r.getEnd, true)
    else return (tree, true)
  | _ => return (tree, false)

def addPiece (tree : Node) (start end_ : Address) : Option Node :=
  if start < end_ then tree.addBetween fuel start end_ else some tree

/-- One round of the loop of `subtract`, which keeps what lies before `start` and behind `end_`. -/
def cut (start end_ : Address) (tree : Node) (r : Range) : Option Node := do
  let (tree, _) ← tree.remove r
  let tree ← tree.addPiece fuel r.start start
  tree.addPiece fuel end_ r.getEnd

def subtract (tree : Node) (range : Range) : Option Node :=
  (tree.findOverlappingRange range).foldlM (cut fuel range.start range.getEnd) tree

def subtractWithAddendum (tree : Node) (range addendum : Range) : Option Node :=
  (tree.findOverlappingRange range).foldlM (cut fuel range.start addendum.getEnd) tree

end Fuel

end Node

inductive Call where
  | add (range : Range)
  | remove (range : Range)
  | splitAt (point : Address)
  | subtract (range : Range)
  | subtractWithAddendum (range addendum : Range)
  | findOverlapping (point : Address)
  | findOverlappingRange (range : Range)
  | findLowerBound (point : Address)
  | findLowerBoundOrOverlapping (point : Address)
  | findUpperBound (point : Address)
  | findUpperBoundOrOverlapping (point : Address)
deriving DecidableEq

inductive Answer where
  | nothing
  | flag (result : Bool)
  | found (ranges : List Range)
  | bound (range : Option Range)

/-- The tree after a call, and its answer. -/
def Call.exec (fuel : Nat) (tree : Node) : Call → Option (Node × Answer)
  | add range => (tree.add fuel range).map fun p => (p.1, .flag p.2)
  | remove range => (tree.remove range).map fun p => (p.1, .flag p.2)
  | splitAt point => (tree.splitAt fuel point).map fun p => (p.1, .flag p.2)
  | subtract range => (tree.subtract fuel range).map (·, .nothing)
  | subtractWithAddendum range addendum => (tree.subtractWithAddendum fuel range addendum).map (·, .nothing)
  | findOverlapping point => some (tree, .found (tree.findOverlapping point))
  | findOverlappingRange range => some (tree, .found (tree.findOverlappingRange range))
  | findLowerBound point => some (tree, .bound (tree.findLowerBound point))
  | findLowerBoundOrOverlapping point => some (tree, .bound (tree.findLowerBoundOrOverlapping point))
  | findUpperBound point => some (tree, .bound (tree.findUpperBound point))
  | findUpperBoundOrOverlapping point => some (tree, .bound (tree.findUpperBoundOrOverlapping point))

/-- The calls one after the other. -/
def runCalls (fuel : Nat) (calls : List Call) (tree : Node) : Option Node :=
  calls.foldlM (fun tree call => (call.exec fuel tree).map Prod.fst) tree

/-! ## Calls that end -/

/-- A tree with these bounds that keeps the invariant. -/
structure Bounded (bounds : Range) (tree : Node) : Prop where
  ok : tree.Ok
  total : tree.totalRange? = some bounds

section Ends

variable {bounds r : Range} {tree : Node}

/-- Not even an assertion is reached with a range that is empty or wraps. -/
theorem remove_improper (hr : ¬ r.Proper) (tree : Node) : tree.remove r = some (tree, false) := by
  rw [Range.proper_iff] at hr
  induction tree with
  | null => rfl
  | node total mid lower higher os oe ihl ihh =>
    by_cases hlow : r.endsBefore mid = true
    · simp [Node.remove, hlow, ihl]
    · have hhigh : Range.startsAfter mid r = true := by
        rw [Range.endsBefore_iff] at hlow
        rw [Range.startsAfter_iff]
        omega
      simp [Node.remove, hlow, hhigh, ihh]

theorem Bounded.remove (h : Bounded bounds tree) (r : Range) :
    ∃ tree' result, tree.remove r = some (tree', result) ∧ Bounded bounds tree' := by
  by_cases hr : r.Proper
  · obtain ⟨tree', hrem, hok, htotal, -⟩ := Node.remove_spec hr tree h.ok
    exact ⟨tree', _, hrem, hok, htotal.trans h.total⟩
  · exact ⟨tree, false, remove_improper hr tree, h⟩

variable {fuel : Nat} (hfuel : addDepth ≤ fuel)

include hfuel

theorem Bounded.add (h : Bounded bounds tree) (hr : bounds.containsRange r = true → r.Proper) :
    ∃ tree' result, tree.add fuel r = some (tree', result) ∧ Bounded bounds tree' := by
  obtain ⟨fuel', rfl⟩ : ∃ k, fuel = k + 64 + 1 := ⟨fuel - 65, by simp only [addDepth] at hfuel; omega⟩
  by_cases hc : bounds.containsRange r = true
  · have hsize : bounds.size.toNat ≤ 2 ^ (fuel' + 64) :=
      bounds.size.isLt.le.trans (Nat.pow_le_pow_right (by decide) (by omega))
    obtain ⟨tree', hadd, hok, htotal, -⟩ := Node.add_spec (hr hc) (fuel' + 64) tree bounds h.total h.ok hsize
    exact ⟨tree', _, hadd, hok, htotal⟩
  · cases tree with
    | null => cases h.total
    | node total mid lower higher os oe =>
      cases h.total
      exact ⟨_, false, by simp [Node.add, hc], h⟩

theorem Bounded.addBetween (h : Bounded bounds tree) {start end_ : Address} (hlt : start < end_) :
    ∃ tree', tree.addBetween fuel start end_ = some tree' ∧ Bounded bounds tree' := by
  rw [BitVec.lt_def] at hlt
  obtain ⟨r, hr, hstart, hend⟩ := Range.fromEndpoints_spec hlt.le
  have hproper : r.Proper := by rw [Range.proper_iff, hstart, hend]; exact hlt
  obtain ⟨tree', result, hadd, hb⟩ := h.add hfuel fun _ => hproper
  exact ⟨tree', by simp [Node.addBetween, hr, hadd], hb⟩

theorem Bounded.addPiece (h : Bounded bounds tree) (start end_ : Address) :
    ∃ tree', tree.addPiece fuel start end_ = some tree' ∧ Bounded bounds tree' := by
  unfold Node.addPiece
  split
  · exact h.addBetween hfuel ‹_›
  · exact ⟨tree, rfl, h⟩

theorem Bounded.cut (h : Bounded bounds tree) (start end_ : Address) (r : Range) :
    ∃ tree', Node.cut fuel start end_ tree r = some tree' ∧ Bounded bounds tree' := by
  obtain ⟨tree₁, result, hrem, h₁⟩ := h.remove r
  obtain ⟨tree₂, hfront, h₂⟩ := h₁.addPiece hfuel r.start start
  obtain ⟨tree₃, hback, h₃⟩ := h₂.addPiece hfuel end_ r.getEnd
  exact ⟨tree₃, by simp only [Node.cut, hrem, hfront, hback, Option.bind_eq_bind, Option.bind_some], h₃⟩

theorem Bounded.cuts (h : Bounded bounds tree) (start end_ : Address) (rs : List Range) :
    ∃ tree', rs.foldlM (Node.cut fuel start end_) tree = some tree' ∧ Bounded bounds tree' :=
  foldlM_total (P := fun _ _ => True) (Bounded bounds) (fun _ r h _ => h.cut hfuel start end_ r) h
    (along_of_forall (fun _ _ => trivial) tree rs)

theorem Bounded.splitAt (h : Bounded bounds tree) (point : Address) :
    ∃ tree' result, tree.splitAt fuel point = some (tree', result) ∧ Bounded bounds tree' := by
  unfold Node.splitAt
  rw [h.total, Option.bind_eq_bind, Option.bind_some]
  by_cases hin : bounds.contains point = true
  · rw [hin, Bool.not_true, if_neg Bool.false_ne_true]
    have hmem : ∀ r ∈ tree.findOverlapping point, r.contains point = true := fun r hr =>
      (List.mem_filter.1 ((Node.findOverlapping_eq point tree h.ok).mem_iff.1 hr)).2
    split
    · next r hfound =>
      rw [hfound, List.forall_mem_singleton, Range.contains_iff] at hmem
      split
      · next hcut =>
        simp only [Bool.and_eq_true, bne_iff_ne] at hcut
        have hstart : r.start < point := by
          have := BitVec.toNat_inj.not.2 hcut.1
          rw [BitVec.lt_def]
          omega
        obtain ⟨tree₁, result, hrem, h₁⟩ := h.remove r
        obtain ⟨tree₂, hfront, h₂⟩ := h₁.addBetween hfuel hstart
        obtain ⟨tree₃, hback, h₃⟩ := h₂.addBetween hfuel (BitVec.lt_def.2 hmem.2)
        exact ⟨tree₃, true, by simp [hrem, hfront, hback], h₃⟩
      · exact ⟨tree, true, rfl, h⟩
    · exact ⟨tree, false, rfl, h⟩
  · rw [Bool.eq_false_iff.2 hin]
    exact ⟨tree, false, rfl, h⟩

/-- Every call but one ends, and leaves a tree on which the next one does. -/
theorem Bounded.exec (h : Bounded bounds tree) {call : Call}
    (hcall : ∀ r, call = .add r → bounds.containsRange r = true → r.Proper) :
    ∃ tree', (call.exec fuel tree).map Prod.fst = some tree' ∧ Bounded bounds tree' := by
  cases call with
  | add r =>
    obtain ⟨tree', result, hadd, hb⟩ := h.add hfuel (hcall r rfl)
    exact ⟨tree', by simp [Call.exec, hadd], hb⟩
  | remove r =>
    obtain ⟨tree', result, hrem, hb⟩ := h.remove r
    exact ⟨tree', by simp [Call.exec, hrem], hb⟩
  | splitAt point =>
    obtain ⟨tree', result, hsplit, hb⟩ := h.splitAt hfuel point
    exact ⟨tree', by simp [Call.exec, hsplit], hb⟩
  | subtract r =>
    obtain ⟨tree', hcuts, hb⟩ := h.cuts hfuel r.start r.getEnd (tree.findOverlappingRange r)
    exact ⟨tree', by simp [Call.exec, Node.subtract, hcuts], hb⟩
  | subtractWithAddendum r addendum =>
    obtain ⟨tree', hcuts, hb⟩ := h.cuts hfuel r.start addendum.getEnd (tree.findOverlappingRange r)
    exact ⟨tree', by simp [Call.exec, Node.subtractWithAddendum, hcuts], hb⟩
  | _ => exact ⟨tree, rfl, h⟩

end Ends

/-! ## The call that does not -/

theorem bounded_subNode {sub child : Node} {a b : Address} (h : sub.subNode a b = some child) (hok : sub.Ok)
    (hr : ∀ t, sub.totalRange? = some t → t.start = a ∧ t.getEnd = b) :
    ∃ t, Bounded t child ∧ t.start = a ∧ t.getEnd = b := by
  cases sub with
  | null =>
    rw [Node.subNode, if_pos rfl, Option.map_eq_some_iff] at h
    obtain ⟨t, ht, rfl⟩ := h
    exact ⟨t, ⟨Node.ok_make t, rfl⟩, (Range.fromEndpoints_some ht).2⟩
  | node total mid lower higher os oe =>
    obtain rfl := Option.some.inj h
    exact ⟨total, ⟨hok, rfl⟩, hr total rfl⟩

/-- A range that is empty or wraps goes on to a sub-node for ever, once it is inside the bounds. -/
theorem add_eq_none {r : Range} (hr : ¬ r.Proper) (fuel : Nat) {bounds : Range} {tree : Node} (h : Bounded bounds tree)
    (hc : bounds.containsRange r = true) : tree.add fuel r = none := by
  induction fuel generalizing bounds tree with
  | zero => rfl
  | succ fuel ih =>
    cases tree with
    | null => cases h.total
    | node total mid lower higher os oe =>
      obtain rfl : total = bounds := Option.some.inj h.total
      obtain ⟨hloc, hokl, hokh⟩ := h.ok
      have hcr := Range.containsRange_iff.1 hc
      have hle := mt Range.proper_iff.2 hr
      have hstr : r.contains mid = false := by
        rw [Bool.eq_false_iff, Ne, Range.contains_iff]
        omega
      by_cases hlow : r.endsBefore mid = true
      · rw [Node.add, hc, hlow]
        cases hsub : lower.subNode total.start mid with
        | none => rfl
        | some child =>
          obtain ⟨t, hb, hstart, hend⟩ := bounded_subNode hsub hokl hloc.lower_range
          have hin : t.containsRange r = true := by
            rw [Range.containsRange_iff, hstart, hend]
            exact ⟨hcr.1, Range.endsBefore_iff.1 hlow⟩
          simp [ih hb hin]
      · rw [Node.add, hc, Bool.eq_false_iff.2 hlow, hstr]
        cases hsub : higher.subNode mid total.getEnd with
        | none => rfl
        | some child =>
          obtain ⟨t, hb, hstart, hend⟩ := bounded_subNode hsub hokh hloc.higher_range
          have hin : t.containsRange r = true := by
            rw [Range.endsBefore_iff] at hlow
            rw [Range.containsRange_iff, hstart, hend]
            omega
          simp [ih hb hin]

/-- From an empty tree, a sequence of calls ends if and only if no `add` has a range inside the bounds that is empty
or wraps. -/
theorem calls_end_iff (bounds : Range) (calls : List Call) (fuel : Nat) (hfuel : addDepth ≤ fuel) :
    (∃ tree, runCalls fuel calls (make bounds) = some tree) ↔
      ∀ r, .add r ∈ calls → bounds.containsRange r = true → r.start < r.getEnd := by
  have hproper : ∀ r : Range, r.start < r.getEnd ↔ r.Proper := fun r => by rw [Range.proper_iff, BitVec.lt_def]
  have hmake : Bounded bounds (make bounds) := ⟨Node.ok_make bounds, rfl⟩
  simp only [hproper]
  constructor
  · rintro ⟨tree', hrun⟩
    have hcalls := forall_of_foldlM (Bounded bounds) (Q := fun call => ∀ r, call = .add r →
      bounds.containsRange r = true → r.Proper) (fun tree call tree₁ hb hcall => ?_) hmake hrun
    · exact fun r hr => hcalls _ hr r rfl
    -- a call that ended was not an `add` of such a range
    have hhead : ∀ r, call = .add r → bounds.containsRange r = true → r.Proper := by
      rintro r rfl hc
      by_contra hr
      simp [Call.exec, add_eq_none hr fuel hb hc] at hcall
    obtain ⟨tree₂, hcall', hb₁⟩ := hb.exec hfuel hhead
    obtain rfl : tree₁ = tree₂ := Option.some.inj (hcall.symm.trans hcall')
    exact ⟨hb₁, hhead⟩
  · intro h
    have halong : Along (fun tree call => (Call.exec fuel tree call).map Prod.fst)
        (fun _ call => ∀ r, call = .add r → bounds.containsRange r = true → r.Proper) (make bounds) calls :=
      along_of_mem (fun call hcall _ r heq => h r (by rw [← heq]; exact hcall)) _
    obtain ⟨tree, hrun, -⟩ := foldlM_total (Bounded bounds) (fun _ _ hb hcall => hb.exec hfuel hcall) hmake halong
    exact ⟨tree, hrun⟩

theorem calls_end_sample : ∃ tree, runCalls 65
    [.add ⟨4, 8⟩, .splitAt 6, .subtract ⟨5, 0⟩, .remove ⟨3, 0⟩, .add ⟨20, 0⟩, .findLowerBound 9] (make ⟨0, 16⟩) = some tree :=
  (calls_end_iff ⟨0, 16⟩ _ 65 (by decide)).2 (by simp [Range.containsRange, Range.getEnd])

/-- On a tree with an empty range, `add` of that range makes a sub-node for the same range and calls itself. On
larger bounds it comes to such a node. -/
theorem add_empty_range :
    (∀ fuel, (make ⟨4, 0⟩).add (fuel + 1) ⟨4, 0⟩ =
      ((make ⟨4, 0⟩).add fuel ⟨4, 0⟩).map fun p => (.node ⟨4, 0⟩ 4 p.1 .null [] [], p.2)) ∧
    (⟨0, 16⟩ : Range).containsRange ⟨4, 0⟩ = true ∧ ∀ fuel, runCalls fuel [.add ⟨4, 0⟩] (make ⟨0, 16⟩) = none := by
  refine ⟨fun fuel => ?_, by decide, fun fuel => ?_⟩
  · have hsub : Node.null.subNode 4 4 = some (make ⟨4, 0⟩) := by decide
    have hmake : make ⟨4, 0⟩ = .node ⟨4, 0⟩ 4 .null .null [] [] := by decide
    rw [hmake] at hsub ⊢
    have hc : (⟨4, 0⟩ : Range).containsRange ⟨4, 0⟩ = true := by decide
    have hlow : (⟨4, 0⟩ : Range).endsBefore 4 = true := by decide
    rw [Node.add, hc, hlow, hsub, Bool.not_true, if_neg Bool.false_ne_true, if_pos rfl,
      Option.bind_eq_bind, Option.bind_some]
    cases Node.add fuel (.node ⟨4, 0⟩ 4 .null .null [] []) ⟨4, 0⟩ <;> rfl
  · have hnone : (make ⟨0, 16⟩).add fuel ⟨4, 0⟩ = none :=
      add_eq_none (by decide) fuel ⟨Node.ok_make ⟨0, 16⟩, rfl⟩ (by decide)
    rw [runCalls, List.foldlM_cons, Call.exec, hnone]
    rfl

end Egalito.IntervalTree
