import Egalito.IntervalTree.Coverage
import Egalito.Lib.Ordered
/-!
# The nearest range

The four lookups of a bound in `util/intervaltree.cpp`. When no two stored ranges
overlap, the walk through the tree goes from left to right, and a lookup finds the
last or the first range of the walk that it accepts.
-/

open Egalito.Lib

namespace Egalito.IntervalTree

/-! ## The walk from left to right -/

/-- The second range lies behind the first. -/
def Behind (q r : Range) : Prop := q.getEnd.toNat ≤ r.start.toNat

/-- The ranges have no address in common. -/
def Apart (q r : Range) : Prop := q.overlaps r = false

instance : Std.Symm Apart where
  symm q r h := by
    rw [Apart, ← Bool.not_eq_true, Range.overlaps_iff] at h ⊢
    omega

theorem Node.Ok.behind {tree : Node} (h : tree.Ok) (hapart : tree.inStartOrderTraversal.Pairwise Apart) :
    tree.inStartOrderTraversal.Pairwise Behind := by
  refine hapart.imp₂ (fun q r hqr hreach => ?_) h.reaches
  rw [Apart, ← Bool.not_eq_true, Range.overlaps_iff] at hqr
  unfold Behind
  omega

/-- At most one of the ranges is around a midpoint. -/
theorem eq_of_straddle {os oe : List Range} {mid : Address} (hsame : os.Perm oe)
    (hstraddle : ∀ r ∈ os, r.contains mid = true) (hapart : os.Pairwise Behind) : oe = os := by
  match os with
  | [] => exact List.nil_perm.1 hsame
  | [r] => exact (List.singleton_perm.1 hsame).symm
  | q :: r :: os =>
    have hq := Range.contains_iff.1 (hstraddle q (by simp))
    have hr := Range.contains_iff.1 (hstraddle r (by simp))
    have hqr : q.getEnd.toNat ≤ r.start.toNat := (List.pairwise_cons.1 hapart).1 r (by simp)
    omega

section Walk

variable {tree : Node} {p : Address} {found : Range → Bool}

/-- A lookup of a lower bound finds the last range that it accepts. -/
theorem lowerBound_eq (h : tree.Ok) (hbehind : tree.inStartOrderTraversal.Pairwise Behind)
    (hfound : ∀ r, r.Proper → found r = true → r.start.toNat ≤ p.toNat) :
    tree.lowerBound found p = tree.inStartOrderTraversal.reverse.find? found := by
  induction tree with
  | null => rfl
  | node total mid lower higher os oe ihl ihh =>
    obtain ⟨hloc, hokl, hokh⟩ := h
    obtain ⟨hlow, hhigh, -⟩ := List.pairwise_append.1 hbehind
    obtain ⟨hlow, hos, -⟩ := List.pairwise_append.1 hlow
    rw [Node.lowerBound, Node.inStartOrderTraversal, List.reverse_append, List.reverse_append, List.find?_append,
      List.find?_append, ihl hokl hlow, eq_of_straddle hloc.same hloc.straddle hos, ← ihh hokh hhigh]
    simp only [Option.orElse_eq_orElse, Option.orElse_eq_or]
    split
    · rfl
    · next hlt =>
      -- all of the higher half starts behind the point
      have hnone : higher.lowerBound found p = none := by
        rw [ihh hokh hhigh, List.find?_eq_none]
        intro r hr hf
        have hr := List.mem_reverse.1 hr
        have h₁ := hfound r (hokh.proper r hr) hf
        have h₂ := Range.startsAfter_iff.1 (hloc.higher_stored r hr)
        rw [ge_iff_le, BitVec.le_def] at hlt
        omega
      rw [hnone]

/-- A lookup of an upper bound finds the first range that it accepts. -/
theorem upperBound_eq (h : tree.Ok) (hbehind : tree.inStartOrderTraversal.Pairwise Behind)
    (hfound : ∀ r, r.Proper → found r = true → p.toNat < r.getEnd.toNat) :
    tree.upperBound found p = tree.inStartOrderTraversal.find? found := by
  induction tree with
  | null => rfl
  | node total mid lower higher os oe ihl ihh =>
    obtain ⟨hloc, hokl, hokh⟩ := h
    obtain ⟨hlow, hhigh, -⟩ := List.pairwise_append.1 hbehind
    obtain ⟨hlow, hos, -⟩ := List.pairwise_append.1 hlow
    rw [Node.upperBound, Node.inStartOrderTraversal, List.append_assoc, List.find?_append, List.find?_append,
      ihh hokh hhigh, ← ihl hokl hlow]
    simp only [Option.orElse_eq_orElse, Option.orElse_eq_or]
    split
    · rfl
    · next hge =>
      have hnone : lower.upperBound found p = none := by
        rw [ihl hokl hlow, List.find?_eq_none]
        intro r hr hf
        have h₁ := hfound r (hokl.proper r hr) hf
        have h₂ := Range.endsBefore_iff.1 (hloc.lower_stored r hr)
        rw [BitVec.lt_def] at hge
        omega
      rw [hnone]

end Walk

/-! ## The nearest range -/

/-- The range that ends last of those that end at the point or before it. -/
structure IsLowerBound (stored : List Range) (p : Address) (r : Range) : Prop where
  mem : r ∈ stored
  before : r.endsBefore p = true
  nearest : ∀ s ∈ stored, s.endsBefore p = true → s.getEnd ≤ r.getEnd

/-- The range that starts first of those that start behind the point. -/
structure IsUpperBound (stored : List Range) (p : Address) (r : Range) : Prop where
  mem : r ∈ stored
  behind : Range.startsAfter p r = true
  nearest : ∀ s ∈ stored, Range.startsAfter p s = true → r.start ≤ s.start

/-- The range that contains the point, or the bound where none does. -/
def OrOverlapping (bound : List Range → Address → Range → Prop) (stored : List Range) (p : Address) (r : Range) : Prop :=
  (r ∈ stored ∧ r.contains p = true) ∨ (∀ s ∈ stored, s.contains p = false) ∧ bound stored p r

/-- What a lookup of a lower bound accepts starts at the point or before it. -/
theorem start_le {p : Address} (r : Range) (hr : r.Proper) (hp : (r.endsBefore p || r.contains p) = true) :
    r.start.toNat ≤ p.toNat := by
  rw [Bool.or_eq_true, Range.endsBefore_iff, Range.contains_iff] at hp
  have := Range.proper_iff.1 hr
  omega

theorem lt_end {p : Address} (r : Range) (hr : r.Proper) (hp : (Range.startsAfter p r || r.contains p) = true) :
    p.toNat < r.getEnd.toNat := by
  rw [Bool.or_eq_true, Range.startsAfter_iff, Range.contains_iff] at hp
  have := Range.proper_iff.1 hr
  omega

section Bounds

variable {bounds : Range} {tree : Node} (h : Keeps bounds tree tree.inStartOrderTraversal)
  (hapart : tree.inStartOrderTraversal.Pairwise Apart) (p : Address) (r : Range)

include h hapart

theorem starts_increase : tree.inStartOrderTraversal.Pairwise fun q r => q.start.toNat < r.start.toNat := by
  refine (h.bounded.ok.behind hapart).imp_of_mem fun {q r} hq _ hqr => ?_
  exact (Range.proper_iff.1 (h.proper q hq)).trans_le hqr

theorem ends_decrease : tree.inStartOrderTraversal.reverse.Pairwise fun q r =>
    OrderDual.toDual q.getEnd.toNat < OrderDual.toDual r.getEnd.toNat := by
  refine List.pairwise_reverse.2 ((h.bounded.ok.behind hapart).imp_of_mem fun {q r} _ hr hqr => ?_)
  exact OrderDual.toDual_lt_toDual.2 (hqr.trans_lt (Range.proper_iff.1 (h.proper r hr)))

theorem findLowerBound_eq : tree.findLowerBound p = tree.inStartOrderTraversal.reverse.find? (·.endsBefore p) :=
  lowerBound_eq h.bounded.ok (h.bounded.ok.behind hapart) fun r hr hp =>
    start_le r hr (Bool.or_eq_true_iff.2 (.inl hp))

theorem findLowerBoundOrOverlapping_eq : tree.findLowerBoundOrOverlapping p =
    tree.inStartOrderTraversal.reverse.find? fun r => r.endsBefore p || r.contains p :=
  lowerBound_eq h.bounded.ok (h.bounded.ok.behind hapart) start_le

theorem findUpperBound_eq : tree.findUpperBound p = tree.inStartOrderTraversal.find? (Range.startsAfter p ·) :=
  upperBound_eq h.bounded.ok (h.bounded.ok.behind hapart) fun r hr hp => lt_end r hr (Bool.or_eq_true_iff.2 (.inl hp))

theorem findUpperBoundOrOverlapping_eq : tree.findUpperBoundOrOverlapping p =
    tree.inStartOrderTraversal.find? fun r => Range.startsAfter p r || r.contains p :=
  upperBound_eq h.bounded.ok (h.bounded.ok.behind hapart) lt_end

theorem findLowerBound_iff :
    tree.findLowerBound p = some r ↔ IsLowerBound tree.inStartOrderTraversal p r := by
  rw [findLowerBound_eq h hapart, find?_eq_some_iff_least _ (ends_decrease h hapart)]
  simp only [List.mem_reverse, OrderDual.toDual_le_toDual, ← BitVec.le_def]
  exact ⟨fun ⟨hmem, hbefore, hnearest⟩ => ⟨hmem, hbefore, hnearest⟩,
    fun ⟨hmem, hbefore, hnearest⟩ => ⟨hmem, hbefore, hnearest⟩⟩

theorem findUpperBound_iff :
    tree.findUpperBound p = some r ↔ IsUpperBound tree.inStartOrderTraversal p r := by
  rw [findUpperBound_eq h hapart, find?_eq_some_iff_least _ (starts_increase h hapart)]
  simp only [← BitVec.le_def]
  exact ⟨fun ⟨hmem, hbehind, hnearest⟩ => ⟨hmem, hbehind, hnearest⟩,
    fun ⟨hmem, hbehind, hnearest⟩ => ⟨hmem, hbehind, hnearest⟩⟩

omit h in
/-- At most one stored range contains a point. -/
theorem eq_of_contains : ∀ q ∈ tree.inStartOrderTraversal, ∀ s ∈ tree.inStartOrderTraversal, q.contains p = true →
    s.contains p = true → q = s := by
  intro q hq s hs hqp hsp
  by_contra hne
  have hqs := hapart.forall hq hs hne
  rw [Apart, ← Bool.not_eq_true, Range.overlaps_iff] at hqs
  rw [Range.contains_iff] at hqp hsp
  omega

theorem findLowerBoundOrOverlapping_iff : tree.findLowerBoundOrOverlapping p = some r ↔
    OrOverlapping IsLowerBound tree.inStartOrderTraversal p r := by
  have hfirst : ∀ q ∈ tree.inStartOrderTraversal.reverse, ∀ s ∈ tree.inStartOrderTraversal.reverse,
      q.contains p = true → s.endsBefore p = true →
        OrderDual.toDual q.getEnd.toNat < OrderDual.toDual s.getEnd.toNat := by
    intro q _ s _ hq hs
    rw [OrderDual.toDual_lt_toDual]
    exact (Range.endsBefore_iff.1 hs).trans_lt (Range.contains_iff.1 hq).2
  have hone : ∀ q ∈ tree.inStartOrderTraversal.reverse, ∀ s ∈ tree.inStartOrderTraversal.reverse,
      q.contains p = true → s.contains p = true → q = s := fun q hq s hs =>
    eq_of_contains hapart p q (List.mem_reverse.1 hq) s (List.mem_reverse.1 hs)
  rw [findLowerBoundOrOverlapping_eq h hapart, find?_or_eq_some_iff _ (ends_decrease h hapart) hone hfirst,
    ← findLowerBound_eq h hapart, findLowerBound_iff h hapart]
  simp only [List.mem_reverse, OrOverlapping]

theorem findUpperBoundOrOverlapping_iff : tree.findUpperBoundOrOverlapping p = some r ↔
    OrOverlapping IsUpperBound tree.inStartOrderTraversal p r := by
  have hfirst : ∀ q ∈ tree.inStartOrderTraversal, ∀ s ∈ tree.inStartOrderTraversal,
      q.contains p = true → Range.startsAfter p s = true → q.start.toNat < s.start.toNat := fun q _ s _ hq hs =>
    (Range.contains_iff.1 hq).1.trans_lt (Range.startsAfter_iff.1 hs)
  rw [findUpperBoundOrOverlapping_eq h hapart,
    find?_or_eq_some_iff _ (starts_increase h hapart) (eq_of_contains hapart p) hfirst,
    ← findUpperBound_eq h hapart, findUpperBound_iff h hapart]
  rfl

end Bounds

/-- After any calls on an empty tree, when no two stored ranges overlap: each lookup returns the nearest range of its
side, or the range that contains the point, and it returns none when there is no such range. -/
theorem bounds_nearest (bounds : Range) (calls : List Call) (fuel : Nat) (hfuel : addDepth ≤ fuel) {tree : Node}
    (hrun : runCalls fuel calls (make bounds) = some tree) (hapart : tree.inStartOrderTraversal.Pairwise Apart)
    (p : Address) :
    ((∀ r, tree.findLowerBound p = some r ↔ IsLowerBound tree.inStartOrderTraversal p r) ∧
      (tree.findLowerBound p = none ↔ ∀ r ∈ tree.inStartOrderTraversal, ¬ r.endsBefore p = true)) ∧
    ((∀ r, tree.findLowerBoundOrOverlapping p = some r ↔ OrOverlapping IsLowerBound tree.inStartOrderTraversal p r) ∧
      (tree.findLowerBoundOrOverlapping p = none ↔
        ∀ r ∈ tree.inStartOrderTraversal, ¬ (r.endsBefore p = true ∨ r.contains p = true))) ∧
    ((∀ r, tree.findUpperBound p = some r ↔ IsUpperBound tree.inStartOrderTraversal p r) ∧
      (tree.findUpperBound p = none ↔ ∀ r ∈ tree.inStartOrderTraversal, ¬ Range.startsAfter p r = true)) ∧
    (∀ r, tree.findUpperBoundOrOverlapping p = some r ↔ OrOverlapping IsUpperBound tree.inStartOrderTraversal p r) ∧
      (tree.findUpperBoundOrOverlapping p = none ↔
        ∀ r ∈ tree.inStartOrderTraversal, ¬ (Range.startsAfter p r = true ∨ r.contains p = true)) := by
  have h := keeps_of_run hfuel hrun
  refine ⟨⟨findLowerBound_iff h hapart p, ?_⟩, ⟨findLowerBoundOrOverlapping_iff h hapart p, ?_⟩,
    ⟨findUpperBound_iff h hapart p, ?_⟩, findUpperBoundOrOverlapping_iff h hapart p, ?_⟩
  · simp only [findLowerBound_eq h hapart, List.find?_eq_none, List.mem_reverse]
  · simp only [findLowerBoundOrOverlapping_eq h hapart, List.find?_eq_none, List.mem_reverse, Bool.or_eq_true]
  · simp only [findUpperBound_eq h hapart, List.find?_eq_none]
  · simp only [findUpperBoundOrOverlapping_eq h hapart, List.find?_eq_none, Bool.or_eq_true]

theorem bounds_nearest_sample : ∃ tree, runCalls 65 [.add ⟨16, 14⟩, .add ⟨32, 14⟩] (make ⟨0, 64⟩) = some tree ∧
    (tree.findLowerBound 31 = none ↔ ∀ r ∈ tree.inStartOrderTraversal, ¬ r.endsBefore 31 = true) := by
  cases hrun : runCalls 65 [.add ⟨16, 14⟩, .add ⟨32, 14⟩] (make ⟨0, 64⟩) with
  | none => exact absurd hrun (by decide +kernel)
  | some tree =>
    have hapart : (runCalls 65 [.add ⟨16, 14⟩, .add ⟨32, 14⟩] (make ⟨0, 64⟩)).all fun tree =>
        tree.inStartOrderTraversal.Pairwise fun q r => q.overlaps r = false := by decide +kernel
    rw [hrun, Option.all_some, decide_eq_true_iff] at hapart
    exact ⟨tree, rfl, (bounds_nearest ⟨0, 64⟩ _ 65 (by decide) hrun hapart 31).1.2⟩

end Egalito.IntervalTree
