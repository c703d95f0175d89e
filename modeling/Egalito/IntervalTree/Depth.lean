import Egalito.IntervalTree.Nearest
/-!
# How many ranges an address is in

What the calls on the tree do to the number of stored ranges that an address is
in. Ranges are apart when no address is in two of them, and a tree that holds one
range is divided by `splitAt` into the pieces between the points.
-/

open Egalito.Lib

namespace Egalito.IntervalTree

/-- The ranges divide the bounds at the points. -/
abbrev Divides (bounds : Range) (P : Set Nat) (ranges : List Range) : Prop :=
  Partitions (fun r : Range => r.start.toNat) (fun r => r.getEnd.toNat) bounds.start.toNat bounds.getEnd.toNat P ranges

theorem apart_iff_separate {q r : Range} :
    Apart q r ↔ Separate (fun r : Range => r.start.toNat) (fun r => r.getEnd.toNat) q r := by
  rw [Apart, ← Bool.not_eq_true, Range.overlaps_iff, Separate]
  omega

theorem apart_iff_depth {ranges : List Range} (hproper : ∀ r ∈ ranges, r.Proper) :
    ranges.Pairwise Apart ↔ ∀ p, depthAt p ranges ≤ 1 := by
  unfold depthAt
  rw [← separate_iff_depth_le_one fun r hr => Range.proper_iff.1 (hproper r hr)]
  exact ⟨fun h => h.imp apart_iff_separate.1, fun h => h.imp apart_iff_separate.2⟩

theorem countP_contains (p : Address) (ranges : List Range) :
    ranges.countP (·.contains p) = depthAt p.toNat ranges := by
  refine List.countP_congr fun r _ => ?_
  rw [Range.contains_iff, decide_eq_true_iff]

variable {bounds : Range} {tree : Node} {ranges : List Range}

/-- The order of the stored ranges does not matter. -/
theorem Keeps.depthAt_eq (h : Keeps bounds tree ranges) (p : Nat) :
    depthAt p tree.inStartOrderTraversal = depthAt p ranges := depthAt_perm h.perm p

theorem Keeps.stored (h : Keeps bounds tree ranges) : Keeps bounds tree tree.inStartOrderTraversal :=
  h.of_perm h.perm.symm

theorem Keeps.within (h : Keeps bounds tree ranges) {r : Range} (hr : r ∈ ranges) :
    bounds.start.toNat ≤ r.start.toNat ∧ r.start.toNat < r.getEnd.toNat ∧ r.getEnd.toNat ≤ bounds.getEnd.toNat :=
  ⟨(Range.containsRange_iff.1 (h.inside r hr)).1, Range.proper_iff.1 (h.proper r hr),
    (Range.containsRange_iff.1 (h.inside r hr)).2⟩

/-- An address outside the bounds is in no stored range. -/
theorem Keeps.depthAt_outside (h : Keeps bounds tree ranges) {p : Nat}
    (hp : ¬ (bounds.start.toNat ≤ p ∧ p < bounds.getEnd.toNat)) : depthAt p ranges = 0 :=
  depth_eq_zero_iff.2 fun r hr hin => by
    have := h.within hr
    omega

variable {fuel : Nat} (hfuel : addDepth ≤ fuel)

include hfuel

/-! ## `splitAt` -/

theorem Keeps.splitAt_depth (h : Keeps bounds tree ranges) (point : Address) :
    ∃ tree' result ranges', tree.splitAt fuel point = some (tree', result) ∧ Keeps bounds tree' ranges' ∧
      ∀ p, depthAt p ranges' = depthAt p ranges := by
  obtain ⟨tree', result, hsplit, hcases⟩ := h.splitAt_cases hfuel point
  rcases hcases with ⟨rfl, -⟩ | ⟨r, rest, front, back, hperm, hrp, hfront, hback, h'⟩
  · exact ⟨tree', result, ranges, hsplit, h, fun _ => rfl⟩
  · refine ⟨tree', result, _, hsplit, h', fun p => ?_⟩
    rw [depthAt_perm hperm, depthAt_cons, depthAt_cons, depthAt_cons, hfront.1, hfront.2, hback.1, hback.2]
    split_ifs <;> omega

/-- `splitAt` divides at one more point. -/
theorem Keeps.splitAt_divides {P : Set Nat} (h : Keeps bounds tree ranges) (hdiv : Divides bounds P ranges)
    (point : Address) : ∃ tree' result ranges', tree.splitAt fuel point = some (tree', result) ∧
      Keeps bounds tree' ranges' ∧ Divides bounds (insert point.toNat P) ranges' := by
  obtain ⟨tree', result, hsplit, hcases⟩ := h.splitAt_cases hfuel point
  rcases hcases with ⟨rfl, hnone⟩ | ⟨r, rest, front, back, hperm, hrp, hfront, hback, h'⟩
  · refine ⟨tree', result, ranges, hsplit, h, hdiv.keep fun x hx hin => ?_⟩
    -- the range around the point is the only one that contains it
    refine hnone ?_ x hx hin
    have honce : depthAt point.toNat ranges = _ := hdiv.once point.toNat
    rw [← List.countP_eq_length_filter, countP_contains, honce]
    have hxb := h.within hx
    exact if_pos (by omega)
  · refine ⟨tree', result, _, hsplit, h', (hdiv.perm hperm).split hrp ?_ ?_⟩
    · rw [hfront.1, hfront.2]
      exact ⟨rfl, rfl⟩
    · rw [hback.1, hback.2]
      exact ⟨rfl, rfl⟩

/-! ## `subtract` and `subtractWithAddendum` -/

omit hfuel in
/-- What is kept of ranges that reach into the addresses from `start` to `end_`. -/
theorem piecesAt_eq {start end_ : Address} (hle : start.toNat ≤ end_.toNat) (p : Nat)
    (hranges : ∀ r ∈ ranges, start.toNat < r.getEnd.toNat ∧ r.start.toNat < end_.toNat) :
    piecesAt start end_ p ranges = if start.toNat ≤ p ∧ p < end_.toNat then 0 else depthAt p ranges := by
  induction ranges with
  | nil => simp [piecesAt]
  | cons r ranges ih =>
    rw [List.forall_mem_cons] at hranges
    have hrest := ih hranges.2
    simp only [piecesAt, depth_cons, depthAt_cons] at hrest ⊢
    split_ifs at hrest ⊢ <;> omega

/-- Outside the addresses that are cut nothing changes, and no address of the range is left. -/
theorem Keeps.subtract_depth (h : Keeps bounds tree ranges) {range : Range} (hproper : range.Proper) {end_ : Address}
    (hend : range.getEnd.toNat ≤ end_.toNat) :
    ∃ tree' ranges', (tree.findOverlappingRange range).foldlM (Node.cut fuel range.start end_) tree = some tree' ∧
      Keeps bounds tree' ranges' ∧ ∀ p, depthAt p ranges' ≤ depthAt p ranges ∧
        (¬ (range.start.toNat ≤ p ∧ p < end_.toNat) → depthAt p ranges' = depthAt p ranges) ∧
        (range.start.toNat ≤ p ∧ p < range.getEnd.toNat → depthAt p ranges' = 0) := by
  rw [Range.proper_iff] at hproper
  obtain ⟨tree', pieces, hrun, h', hdepth⟩ := h.cutsOverlapping hfuel range hend
  refine ⟨tree', _, hrun, h', fun p => ?_⟩
  have hpieces := (hdepth p).trans (piecesAt_eq (by omega) p fun r hr => by
    have ho := Range.overlaps_iff.1 (List.mem_filter.1 hr).2
    omega)
  have hsum : depthAt p ranges = depthAt p (ranges.filter (·.overlaps range)) +
      depthAt p (ranges.filter fun r => !r.overlaps range) := by
    rw [← depthAt_append, depthAt_perm (List.filter_append_perm (·.overlaps range) ranges)]
  have hrest : range.start.toNat ≤ p ∧ p < range.getEnd.toNat →
      depthAt p (ranges.filter fun r => !r.overlaps range) = 0 := fun hp => depth_eq_zero_iff.2 fun r hr hin => by
    have hno := (List.mem_filter.1 hr).2
    rw [overlaps_of_contains hin hp] at hno
    cases hno
  rw [depthAt_append, hpieces, hsum]
  split_ifs with hcut
  · exact ⟨by omega, fun hnot => absurd hcut hnot, fun hp => by rw [hrest hp]⟩
  · exact ⟨le_rfl, fun _ => rfl, fun hp => absurd ⟨hp.1, hp.2.trans_le hend⟩ hcut⟩

end Egalito.IntervalTree
