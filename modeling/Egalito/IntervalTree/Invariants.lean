import Egalito.IntervalTree.Model
/-!
# The representation invariant

Every stored range straddles the midpoint of its node, or lies in the half of
the sub-node that holds it. `add` and `remove` keep this, and act on the stored
ranges as on a bag.
-/

namespace Egalito.IntervalTree

open Egalito.Lib

namespace Node

def totalRange? : Node → Option Range
  | null => none
  | node total .. => some total

/-- What one node guarantees about its own lists and its two sub-nodes. -/
structure Local (total : Range) (mid : Address) (lower higher : Node) (os oe : List Range) : Prop where
  midpoint : mid = total.start + total.size / 2
  lower_range : ∀ t, lower.totalRange? = some t → t.start = total.start ∧ t.getEnd = mid
  higher_range : ∀ t, higher.totalRange? = some t → t.start = mid ∧ t.getEnd = total.getEnd
  lower_stored : ∀ r ∈ lower.inStartOrderTraversal, r.endsBefore mid = true
  straddle : ∀ r ∈ os, r.contains mid = true
  higher_stored : ∀ r ∈ higher.inStartOrderTraversal, Range.startsAfter mid r = true
  start_sorted : os.Pairwise (fun a b => b.lt a = false)
  end_sorted : oe.Pairwise (fun a b => b.endGt a = false)
  same : os.Perm oe

def Ok : Node → Prop
  | null => True
  | node total mid lower higher os oe => Local total mid lower higher os oe ∧ Ok lower ∧ Ok higher

theorem ok_make (t : Range) : (make t).Ok := by
  refine ⟨⟨rfl, ?_, ?_, ?_, ?_, ?_, ?_, ?_, ?_⟩, trivial, trivial⟩ <;>
    simp [totalRange?, inStartOrderTraversal]

theorem lists_agree {n : Node} (h : n.Ok) : ListsAgree n := by
  induction n with
  | null => trivial
  | node total mid lower higher os oe ihl ihh => exact ⟨h.1.same, ihl h.2.1, ihh h.2.2⟩

/-! ## Midpoints -/

/-- Bounds that contain a proper range do not wrap. -/
theorem proper_of_contains {t r : Range} (hr : r.Proper) (h : t.containsRange r = true) : t.Proper := by
  rw [Range.proper_iff] at *
  rw [Range.containsRange_iff] at h
  omega

theorem toNat_midpoint {t : Range} (ht : t.Proper) :
    (t.start + t.size / 2).toNat = t.start.toNat + t.size.toNat / 2 := by
  have h : (t.size / 2).toNat = t.size.toNat / 2 := by simp [BitVec.toNat_udiv]
  obtain ⟨h1, h2⟩ := ht
  rw [BitVec.toNat_add, h]
  omega

theorem toNat_size {t : Range} (h : t.start.toNat ≤ t.getEnd.toNat) :
    t.size.toNat = t.getEnd.toNat - t.start.toNat := by
  have h1 := t.start.isLt
  have h2 := t.size.isLt
  simp only [Range.getEnd, BitVec.toNat_add] at *
  omega

/-! ## `add` -/

theorem sortStart_perm (l : List Range) : (sortStart l).Perm l := List.perm_insertionSort _ l

theorem sortEnd_perm (l : List Range) : (sortEnd l).Perm l := List.perm_insertionSort _ l

theorem sortStart_sorted (l : List Range) : (sortStart l).Pairwise (fun a b => b.lt a = false) := by
  refine pairwise_sort ?_ ?_ l
  · intro a b c; simp only [Range.lt_eq_false]; omega
  · intro a b; simp only [Range.lt_eq_false]; omega

theorem sortEnd_sorted (l : List Range) : (sortEnd l).Pairwise (fun a b => b.endGt a = false) := by
  refine pairwise_sort ?_ ?_ l
  · intro a b c; simp only [Range.endGt_eq_false]; omega
  · intro a b; simp only [Range.endGt_eq_false]; omega

/-- The sub-node `add` descends into: the existing one, or a new empty one. -/
theorem subNode_spec {sub : Node} {a b : Address} (hab : a.toNat ≤ b.toNat) (hok : sub.Ok)
    (hr : ∀ t, sub.totalRange? = some t → t.start = a ∧ t.getEnd = b) :
    ∃ c t, sub.subNode a b = some c ∧ c.Ok ∧
      c.totalRange? = some t ∧ t.start = a ∧ t.getEnd = b ∧
      c.inStartOrderTraversal = sub.inStartOrderTraversal := by
  cases sub with
  | null =>
    obtain ⟨t, ht, h1, h2⟩ := Range.fromEndpoints_spec hab
    exact ⟨make t, t, by simp [subNode, ht], ok_make t, rfl, h1, h2, by simp [make, inStartOrderTraversal]⟩
  | node total mid lower higher os oe =>
    obtain ⟨h1, h2⟩ := hr total rfl
    exact ⟨_, total, by simp [subNode], hok, rfl, h1, h2, rfl⟩

/-- What `add` does to a node that covers `t`. -/
def AddsTo (r t : Range) (n : Node) (result : Option (Node × Bool)) : Prop :=
  ∃ n', result = some (n', t.containsRange r) ∧ n'.Ok ∧ n'.totalRange? = some t ∧
    n'.inStartOrderTraversal.Perm
      (if t.containsRange r then r :: n.inStartOrderTraversal else n.inStartOrderTraversal)

/-- One call of `add`, given what the call on the sub-node does. -/
theorem add_step {r total : Range} (hr : r.Proper) {mid : Address} {lower higher : Node} {os oe : List Range}
    (hok : (node total mid lower higher os oe).Ok) {fuel : Nat}
    (hsub : ∀ (c : Node) (t : Range), c.totalRange? = some t → c.Ok → 2 ≤ total.size.toNat →
      2 * t.size.toNat ≤ total.size.toNat + 1 → AddsTo r t c (c.add fuel r)) :
    AddsTo r total (node total mid lower higher os oe) ((node total mid lower higher os oe).add (fuel + 1) r) := by
  obtain ⟨hloc, hokl, hokh⟩ := hok
  by_cases hc : total.containsRange r = true
  swap
  · refine ⟨node total mid lower higher os oe, ?_, ⟨hloc, hokl, hokh⟩, rfl, ?_⟩ <;> simp [add, hc]
  have hmid := toNat_midpoint (proper_of_contains hr hc)
  have hsize := toNat_size (Nat.le_of_lt (Range.proper_iff.1 (proper_of_contains hr hc)))
  rw [← hloc.midpoint] at hmid
  have hcr := Range.containsRange_iff.1 hc
  have hrp := Range.proper_iff.1 hr
  by_cases hlow : r.endsBefore mid = true
  · -- below the midpoint: the lower half
    have hle := Range.endsBefore_iff.1 hlow
    obtain ⟨c, t, hcs, hcok, hct, hts, hte, hcst⟩ := subNode_spec (by omega) hokl hloc.lower_range
    have htsize := toNat_size (t := t) (by rw [hts, hte]; omega)
    rw [hts, hte] at htsize
    obtain ⟨c', hadd, hok', ht', hperm⟩ := hsub c t hct hcok (by omega) (by omega)
    have hin : t.containsRange r = true := by rw [Range.containsRange_iff, hts, hte]; omega
    rw [hin] at hadd hperm
    simp only [if_true, hcst] at hperm
    refine ⟨node total mid c' higher os oe, ?_, ⟨{ hloc with
      lower_range := ?_, lower_stored := ?_ }, hok', hokh⟩, rfl, ?_⟩
    · simp [add, hc, hlow, hcs, hadd]
    · intro t' h'
      rw [ht'] at h'; cases h'
      exact ⟨hts, hte⟩
    · intro x hx
      rcases List.mem_cons.1 (hperm.subset hx) with rfl | hx
      · exact hlow
      · exact hloc.lower_stored x hx
    · simp only [hc, if_true, inStartOrderTraversal]
      exact (hperm.append_right os).append_right higher.inStartOrderTraversal
  by_cases hstr : r.contains mid = true
  · -- around the midpoint: stored here
    refine ⟨node total mid lower higher (sortStart (os ++ [r])) (sortEnd (oe ++ [r])), ?_, ⟨{ hloc with
      straddle := ?_, start_sorted := sortStart_sorted _, end_sorted := sortEnd_sorted _, same := ?_ },
      hokl, hokh⟩, rfl, ?_⟩
    · simp only [add, hc, hlow, hstr]; simp
    · intro x hx
      rcases List.mem_append.1 ((sortStart_perm _).subset hx) with hx | hx
      · exact hloc.straddle x hx
      · rw [List.mem_singleton.1 hx]; exact hstr
    · exact ((sortStart_perm _).trans (hloc.same.append_right [r])).trans (sortEnd_perm _).symm
    · simp only [hc, if_true, inStartOrderTraversal]
      have h1 : (sortStart (os ++ [r])).Perm (r :: os) := (sortStart_perm _).trans List.perm_append_comm
      calc lower.inStartOrderTraversal ++ sortStart (os ++ [r]) ++ higher.inStartOrderTraversal
          |>.Perm (lower.inStartOrderTraversal ++ r :: os ++ higher.inStartOrderTraversal) :=
            (h1.append_left _).append_right _
        _ |>.Perm (r :: (lower.inStartOrderTraversal ++ os) ++ higher.inStartOrderTraversal) :=
            List.perm_middle.append_right _
  · -- above the midpoint: the higher half
    have hgt : mid.toNat < r.start.toNat := by
      rw [Range.contains_iff] at hstr
      rw [Range.endsBefore_iff] at hlow
      omega
    obtain ⟨c, t, hcs, hcok, hct, hts, hte, hcst⟩ := subNode_spec (by omega) hokh hloc.higher_range
    have htsize := toNat_size (t := t) (by rw [hts, hte]; omega)
    rw [hts, hte] at htsize
    obtain ⟨c', hadd, hok', ht', hperm⟩ := hsub c t hct hcok (by omega) (by omega)
    have hin : t.containsRange r = true := by rw [Range.containsRange_iff, hts, hte]; omega
    rw [hin] at hadd hperm
    simp only [if_true, hcst] at hperm
    refine ⟨node total mid lower c' os oe, ?_, ⟨{ hloc with
      higher_range := ?_, higher_stored := ?_ }, hokl, hok'⟩, rfl, ?_⟩
    · simp [add, hc, hlow, hstr, hcs, hadd]
    · intro t' h'
      rw [ht'] at h'; cases h'
      exact ⟨hts, hte⟩
    · intro x hx
      rcases List.mem_cons.1 (hperm.subset hx) with rfl | hx
      · exact Range.startsAfter_iff.2 hgt
      · exact hloc.higher_stored x hx
    · simp only [hc, if_true, inStartOrderTraversal]
      exact (hperm.append_left _).trans List.perm_middle

/-- `add` stores the range exactly when the node's range contains it. The range
covered at least halves on the way down, so `fuel` levels are enough. -/
theorem add_spec {r : Range} (hr : r.Proper) (fuel : Nat) : ∀ (n : Node) (t : Range), n.totalRange? = some t →
    n.Ok → t.size.toNat ≤ 2 ^ fuel → AddsTo r t n (n.add (fuel + 1) r) := by
  induction fuel with
  | zero =>
    rintro (_ | ⟨total, mid, lower, higher, os, oe⟩) t ht hok hsize
    · cases ht
    · cases ht
      exact add_step hr hok (fun c t _ _ h2 _ => by omega)
  | succ fuel ih =>
    rintro (_ | ⟨total, mid, lower, higher, os, oe⟩) t ht hok hsize
    · cases ht
    · cases ht
      refine add_step hr hok (fun c t hct hcok _ hhalf => ih c t hct hcok ?_)
      rw [pow_succ] at hsize
      omega

/-! ## `remove` -/

/-- `remove` takes out one copy of the range, and says whether there was one.
The assertion holds because both lists of a node hold the same ranges. -/
theorem remove_spec {r : Range} (hr : r.Proper) (n : Node) (hok : n.Ok) :
    ∃ n', n.remove r = some (n', decide (r ∈ n.inStartOrderTraversal)) ∧ n'.Ok ∧
      n'.totalRange? = n.totalRange? ∧ n'.inStartOrderTraversal.Perm (n.inStartOrderTraversal.erase r) := by
  have hrp := Range.proper_iff.1 hr
  induction n with
  | null => exact ⟨null, by simp [remove, inStartOrderTraversal], trivial, rfl, by simp [inStartOrderTraversal]⟩
  | node total mid lower higher os oe ihl ihh =>
    obtain ⟨hloc, hokl, hokh⟩ := hok
    have hlow : r ∈ lower.inStartOrderTraversal → r.getEnd.toNat ≤ mid.toNat :=
      fun h => Range.endsBefore_iff.1 (hloc.lower_stored r h)
    have hstr : r ∈ os → r.start.toNat ≤ mid.toNat ∧ mid.toNat < r.getEnd.toNat :=
      fun h => Range.contains_iff.1 (hloc.straddle r h)
    have hhigh : r ∈ higher.inStartOrderTraversal → mid.toNat < r.start.toNat :=
      fun h => Range.startsAfter_iff.1 (hloc.higher_stored r h)
    by_cases h1 : r.endsBefore mid = true
    · obtain ⟨l', hrem, hok', ht', hperm⟩ := ihl hokl
      have h1' := Range.endsBefore_iff.1 h1
      have hos : r ∉ os := fun h => by have := hstr h; omega
      have hhi : r ∉ higher.inStartOrderTraversal := fun h => by have := hhigh h; omega
      refine ⟨node total mid l' higher os oe, ?_, ⟨{ hloc with
        lower_range := ht' ▸ hloc.lower_range
        lower_stored := fun x hx => hloc.lower_stored x (List.mem_of_mem_erase (hperm.subset hx)) },
        hok', hokh⟩, rfl, ?_⟩
      · simp [remove, h1, hrem, inStartOrderTraversal, hos, hhi]
      · simp only [inStartOrderTraversal, List.append_assoc]
        rw [List.erase_append]
        split
        · exact hperm.append_right _
        · rename_i hl
          rw [List.erase_of_not_mem hl] at hperm
          rw [List.erase_of_not_mem (by simp [hos, hhi])]
          exact hperm.append_right _
    have h1' : mid.toNat < r.getEnd.toNat := by rw [Range.endsBefore_iff] at h1; omega
    have hlo : r ∉ lower.inStartOrderTraversal := fun h => by have := hlow h; omega
    by_cases h2 : Range.startsAfter mid r = true
    · obtain ⟨h', hrem, hok', ht', hperm⟩ := ihh hokh
      have h2' := Range.startsAfter_iff.1 h2
      have hos : r ∉ os := fun h => by have := hstr h; omega
      refine ⟨node total mid lower h' os oe, ?_, ⟨{ hloc with
        higher_range := ht' ▸ hloc.higher_range
        higher_stored := fun x hx => hloc.higher_stored x (List.mem_of_mem_erase (hperm.subset hx)) },
        hokl, hok'⟩, rfl, ?_⟩
      · simp [remove, h1, h2, hrem, inStartOrderTraversal, hos, hlo]
      · simp only [inStartOrderTraversal]
        rw [List.erase_append_right _ (by simp [hos, hlo])]
        exact hperm.append_left _
    · have hhi : r ∉ higher.inStartOrderTraversal :=
        fun h => by have := hhigh h; rw [Range.startsAfter_iff] at h2; omega
      have hmem : r ∈ oe ↔ r ∈ os := hloc.same.mem_iff.symm
      refine ⟨node total mid lower higher (os.erase r) (oe.erase r), ?_, ⟨{ hloc with
        straddle := fun x hx => hloc.straddle x (List.mem_of_mem_erase hx)
        start_sorted := hloc.start_sorted.sublist List.erase_sublist
        end_sorted := hloc.end_sorted.sublist List.erase_sublist
        same := hloc.same.erase r }, hokl, hokh⟩, rfl, ?_⟩
      · by_cases hos : r ∈ os <;> simp [remove, h1, h2, inStartOrderTraversal, hmem, hos, hlo, hhi]
      · simp only [inStartOrderTraversal]
        rw [List.append_assoc, List.append_assoc, List.erase_append_right _ hlo]
        refine List.Perm.append_left _ ?_
        rw [List.erase_append]
        split
        · exact .refl _
        · rename_i hos
          rw [List.erase_of_not_mem hos, List.erase_of_not_mem hhi]

/-! ## Lookups -/

/-- A lookup by point descends into one half and stops early in the sorted
lists, and still finds every stored range that contains the point. -/
theorem findOverlapping_eq (p : Address) (n : Node) (hok : n.Ok) :
    (n.findOverlapping p).Perm (n.inStartOrderTraversal.filter (·.contains p)) := by
  induction n with
  | null => exact .refl _
  | node total mid lower higher os oe ihl ihh =>
    obtain ⟨hloc, hokl, hokh⟩ := hok
    simp only [findOverlapping, inStartOrderTraversal, List.filter_append]
    by_cases hp : p < mid
    · have hp' : p.toNat < mid.toNat := hp
      have hnge : ¬ mid ≤ p := by simp [BitVec.le_def]; omega
      have hhi : higher.inStartOrderTraversal.filter (·.contains p) = [] := by
        rw [List.filter_eq_nil_iff]
        intro r hr h
        have := Range.startsAfter_iff.1 (hloc.higher_stored r hr)
        rw [Range.contains_iff] at h
        omega
      have hos : scanUntil (·.contains p) (Range.startsAfter p ·) os = os.filter (·.contains p) := by
        refine scanUntil_eq_filter hloc.start_sorted (fun x y hxy hx => ?_)
        rw [Range.lt_eq_false] at hxy
        rw [Range.startsAfter_iff] at hx
        rw [Bool.eq_false_iff, ne_eq, Range.contains_iff]
        omega
      simp only [hp, if_true, hnge, if_false, hhi, hos, List.append_nil]
      exact (ihl hokl).append_right _
    · have hp' : mid.toNat ≤ p.toNat := by rw [BitVec.lt_def] at hp; omega
      have hge : mid ≤ p := hp'
      have hlo : lower.inStartOrderTraversal.filter (·.contains p) = [] := by
        rw [List.filter_eq_nil_iff]
        intro r hr h
        have := Range.endsBefore_iff.1 (hloc.lower_stored r hr)
        rw [Range.contains_iff] at h
        omega
      have hoe : scanUntil (·.contains p) (·.endsBefore p) oe = oe.filter (·.contains p) := by
        refine scanUntil_eq_filter hloc.end_sorted (fun x y hxy hx => ?_)
        rw [Range.endGt_eq_false] at hxy
        rw [Range.endsBefore_iff] at hx
        rw [Bool.eq_false_iff, ne_eq, Range.contains_iff]
        omega
      simp only [hp, if_false, hge, if_true, hlo, hoe, List.nil_append]
      exact (hloc.same.symm.filter _).append (ihh hokh)

/-- A lookup by range skips a half only if nothing stored there can overlap. -/
theorem findOverlappingRange_eq (q : Range) (n : Node) (hok : n.Ok) :
    n.findOverlappingRange q = n.inStartOrderTraversal.filter (·.overlaps q) := by
  induction n with
  | null => rfl
  | node total mid lower higher os oe ihl ihh =>
    obtain ⟨hloc, hokl, hokh⟩ := hok
    simp only [findOverlappingRange, inStartOrderTraversal, List.filter_append]
    congr 1
    · congr 1
      split
      · exact ihl hokl
      · rename_i h
        symm
        rw [List.filter_eq_nil_iff]
        intro r hr ho
        have := Range.endsBefore_iff.1 (hloc.lower_stored r hr)
        rw [Range.overlaps_iff] at ho
        rw [Bool.not_eq_true, Bool.not_eq_false', Bool.or_eq_true, Range.startsAfter_iff, beq_iff_eq,
          ← BitVec.toNat_inj] at h
        omega
    · split
      · exact ihh hokh
      · rename_i h
        symm
        rw [List.filter_eq_nil_iff]
        intro r hr ho
        have := Range.startsAfter_iff.1 (hloc.higher_stored r hr)
        rw [Range.overlaps_iff] at ho
        rw [Bool.not_eq_true, Bool.not_eq_false', Range.endsBefore_iff] at h
        omega

end Node

end Egalito.IntervalTree
