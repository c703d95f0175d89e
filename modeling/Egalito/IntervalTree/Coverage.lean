import Egalito.IntervalTree.Calls
import Egalito.Lib.Pieces
import Egalito.Lib.Sweep
/-!
# What the tree covers

`complement`, `unionWith`, `subtract` and `splitAt` of `util/intervaltree.cpp` as
operations on the covered addresses. `complement` sweeps over the ranges in the
order of a walk through the tree, in which a range around a midpoint comes after
all those below it.
-/

open Egalito.Lib

namespace Egalito.IntervalTree

namespace Node

/-- A stored range contains the address. -/
def Covers (tree : Node) (p : Address) : Prop := ∃ r ∈ tree.inStartOrderTraversal, r.contains p = true

section Fuel

variable (fuel : Nat)

/-- One round of the walk of `complement`, which keeps `newTree` and `lastPoint`. -/
def complementStep (s : Node × Address) (r : Range) : Option (Node × Address) := do
  return (← s.1.addPiece fuel s.2 r.start, if s.2 < r.getEnd then r.getEnd else s.2)

def complement (tree : Node) : Option Node := do
  let bounds ← tree.totalRange?
  let (newTree, lastPoint) ← tree.inStartOrderTraversal.foldlM (complementStep fuel) (make bounds, bounds.start)
  newTree.addPiece fuel lastPoint bounds.getEnd

/-- The other tree is not this one: the walk does not see the ranges that are added. -/
def unionWith (tree otherTree : Node) : Option Node :=
  otherTree.inStartOrderTraversal.foldlM (fun tree r => (tree.add fuel r).map Prod.fst) tree

end Fuel

end Node

/-! ## Stored ranges -/

/-- A tree with these bounds, and the ranges that it stores. -/
structure Keeps (bounds : Range) (tree : Node) (ranges : List Range) : Prop where
  bounded : Bounded bounds tree
  perm : tree.inStartOrderTraversal.Perm ranges
  inside : ∀ r ∈ ranges, bounds.containsRange r = true

/-- Every stored range contains the midpoint of a node. -/
theorem Node.Ok.proper {tree : Node} (h : tree.Ok) : ∀ r ∈ tree.inStartOrderTraversal, r.Proper := by
  induction tree with
  | null => exact fun r hr => nomatch hr
  | node total mid lower higher os oe ihl ihh =>
    intro r hr
    rcases List.mem_append.1 hr with hr | hr
    · rcases List.mem_append.1 hr with hr | hr
      · exact ihl h.2.1 r hr
      · have hmid := Range.contains_iff.1 (h.1.straddle r hr)
        exact Range.proper_iff.2 (hmid.1.trans_lt hmid.2)
    · exact ihh h.2.2 r hr

/-- In how many of the ranges the address is. -/
def depthAt (p : Nat) (ranges : List Range) : Nat :=
  depth (fun r : Range => r.start.toNat) (fun r => r.getEnd.toNat) p ranges

variable {bounds r : Range} {tree tree' : Node} {ranges : List Range} {fuel : Nat}

@[simp] theorem depthAt_nil (p : Nat) : depthAt p [] = 0 := rfl

@[simp] theorem depthAt_cons (p : Nat) (r : Range) (ranges : List Range) : depthAt p (r :: ranges) =
    depthAt p ranges + if r.start.toNat ≤ p ∧ p < r.getEnd.toNat then 1 else 0 := depth_cons

@[simp] theorem depthAt_append (p : Nat) (ranges ranges' : List Range) :
    depthAt p (ranges ++ ranges') = depthAt p ranges + depthAt p ranges' := depth_append

theorem depthAt_perm {ranges ranges' : List Range} (h : ranges.Perm ranges') (p : Nat) :
    depthAt p ranges = depthAt p ranges' := depth_perm h

theorem exists_contains_iff (p : Address) : (∃ r ∈ ranges, r.contains p = true) ↔ 0 < depthAt p.toNat ranges := by
  simp only [depthAt, depth_pos_iff, Range.contains_iff]

theorem Keeps.proper (h : Keeps bounds tree ranges) : ∀ r ∈ ranges, r.Proper :=
  fun r hr => h.bounded.ok.proper r (h.perm.mem_iff.2 hr)

theorem Keeps.covers_iff (h : Keeps bounds tree ranges) (p : Address) :
    tree.Covers p ↔ ∃ r ∈ ranges, r.contains p = true :=
  exists_congr fun _ => and_congr_left fun _ => h.perm.mem_iff

theorem keeps_make (bounds : Range) : Keeps bounds (make bounds) [] :=
  ⟨⟨Node.ok_make bounds, rfl⟩, by simp [Node.make, Node.inStartOrderTraversal], by simp⟩

theorem Keeps.of_perm {ranges' : List Range} (h : Keeps bounds tree ranges) (hperm : ranges.Perm ranges') :
    Keeps bounds tree ranges' :=
  ⟨h.bounded, h.perm.trans hperm, fun r hr => h.inside r (hperm.mem_iff.2 hr)⟩

theorem Keeps.remove (h : Keeps bounds tree ranges) (hr : r ∈ ranges) :
    ∃ tree', tree.remove r = some (tree', true) ∧ Keeps bounds tree' (ranges.erase r) := by
  obtain ⟨tree', hrem, hok, htotal, hperm⟩ := Node.remove_spec (h.proper r hr) tree h.bounded.ok
  rw [decide_eq_true (h.perm.mem_iff.2 hr)] at hrem
  exact ⟨tree', hrem, ⟨hok, htotal.trans h.bounded.total⟩, hperm.trans (h.perm.erase r),
    fun x hx => h.inside x (List.mem_of_mem_erase hx)⟩

section Adding

variable (hfuel : addDepth ≤ fuel)

include hfuel

/-- `add` stores a range of the bounds and leaves out any other. -/
theorem Keeps.add (h : Keeps bounds tree ranges) (hr : bounds.containsRange r = true → r.Proper) :
    ∃ tree', tree.add fuel r = some (tree', bounds.containsRange r) ∧
      Keeps bounds tree' (if bounds.containsRange r then r :: ranges else ranges) := by
  by_cases hc : bounds.containsRange r = true
  · obtain ⟨fuel', rfl⟩ : ∃ k, fuel = k + 64 + 1 := ⟨fuel - 65, by simp only [addDepth] at hfuel; omega⟩
    have hsize : bounds.size.toNat ≤ 2 ^ (fuel' + 64) :=
      bounds.size.isLt.le.trans (Nat.pow_le_pow_right (by decide) (by omega))
    obtain ⟨tree', hadd, hok, htotal, hperm⟩ :=
      Node.add_spec (hr hc) (fuel' + 64) tree bounds h.bounded.total h.bounded.ok hsize
    refine ⟨tree', hadd, ⟨hok, htotal⟩, ?_, ?_⟩
    · rw [if_pos hc] at hperm ⊢
      exact hperm.trans (h.perm.cons r)
    · rw [if_pos hc]
      exact List.forall_mem_cons.2 ⟨hc, h.inside⟩
  · cases tree with
    | null => cases h.bounded.total
    | node total mid lower higher os oe =>
      cases h.bounded.total
      obtain ⟨fuel', rfl⟩ : ∃ k, fuel = k + 1 := ⟨fuel - 1, by simp only [addDepth] at hfuel; omega⟩
      rw [if_neg hc, Bool.eq_false_iff.2 hc]
      exact ⟨_, by simp [Node.add, hc], h⟩

/-- Adding a piece of the bounds. -/
theorem Keeps.addBetween (h : Keeps bounds tree ranges) {start end_ : Address} (hlt : start.toNat < end_.toNat)
    (hstart : bounds.start.toNat ≤ start.toNat) (hend : end_.toNat ≤ bounds.getEnd.toNat) :
    ∃ tree' r, tree.addBetween fuel start end_ = some tree' ∧ r.start = start ∧ r.getEnd = end_ ∧
      Keeps bounds tree' (r :: ranges) := by
  obtain ⟨r, hr, hrs, hre⟩ := Range.fromEndpoints_spec hlt.le
  have hproper : r.Proper := by
    rw [Range.proper_iff, hrs, hre]
    exact hlt
  have hin : bounds.containsRange r = true := by
    rw [Range.containsRange_iff, hrs, hre]
    exact ⟨hstart, hend⟩
  obtain ⟨tree', hadd, hkeeps⟩ := h.add hfuel fun _ => hproper
  rw [if_pos hin] at hkeeps
  exact ⟨tree', r, by simp [Node.addBetween, hr, hadd], hrs, hre, hkeeps⟩

/-- The same, where it is not empty. -/
theorem Keeps.addPiece_depth (h : Keeps bounds tree ranges) {start end_ : Address}
    (hstart : bounds.start.toNat ≤ start.toNat) (hend : end_.toNat ≤ bounds.getEnd.toNat) :
    ∃ tree' ranges', tree.addPiece fuel start end_ = some tree' ∧ Keeps bounds tree' (ranges' ++ ranges) ∧
      ∀ p, depthAt p ranges' = if start.toNat ≤ p ∧ p < end_.toNat then 1 else 0 := by
  unfold Node.addPiece
  by_cases hlt : start < end_
  · obtain ⟨tree', r, hadd, rfl, rfl, hkeeps⟩ := h.addBetween hfuel (BitVec.lt_def.1 hlt) hstart hend
    exact ⟨tree', [r], by rw [if_pos hlt, hadd], hkeeps, fun p => by simp⟩
  · refine ⟨tree, [], by rw [if_neg hlt], h, fun p => ?_⟩
    rw [BitVec.lt_def] at hlt
    rw [if_neg (by omega), depthAt_nil]

theorem Keeps.addPiece (h : Keeps bounds tree ranges) {start end_ : Address} (hstart : bounds.start.toNat ≤ start.toNat)
    (hend : end_.toNat ≤ bounds.getEnd.toNat) :
    ∃ tree' ranges', tree.addPiece fuel start end_ = some tree' ∧ Keeps bounds tree' (ranges' ++ ranges) ∧
      ∀ p : Address, (∃ r ∈ ranges', r.contains p = true) ↔ start.toNat ≤ p.toNat ∧ p.toNat < end_.toNat := by
  obtain ⟨tree', ranges', hadd, hkeeps, hdepth⟩ := h.addPiece_depth hfuel hstart hend
  refine ⟨tree', ranges', hadd, hkeeps, fun p => ?_⟩
  rw [exists_contains_iff, hdepth]
  split_ifs with hp <;> simp [hp]

/-- `add` that ends keeps the ranges inside the bounds. -/
theorem Keeps.add_some (h : Keeps bounds tree ranges) {result : Bool} (hadd : tree.add fuel r = some (tree', result)) :
    ∃ ranges', Keeps bounds tree' ranges' := by
  have hr : bounds.containsRange r = true → r.Proper := fun hc => by
    by_contra hr
    rw [add_eq_none hr fuel h.bounded hc] at hadd
    cases hadd
  obtain ⟨tree₁, hadd₁, h₁⟩ := h.add hfuel hr
  obtain rfl : tree₁ = tree' := congrArg Prod.fst (Option.some.inj (hadd₁.symm.trans hadd))
  exact ⟨_, h₁⟩

theorem Keeps.addBetween_some (h : Keeps bounds tree ranges) {start end_ : Address}
    (hadd : tree.addBetween fuel start end_ = some tree') : ∃ ranges', Keeps bounds tree' ranges' := by
  simp only [Node.addBetween, Option.bind_eq_bind, Option.bind_eq_some_iff, Option.pure_def, Option.some.injEq] at hadd
  obtain ⟨r, -, ⟨tree₁, result⟩, hadd, rfl⟩ := hadd
  exact h.add_some hfuel hadd

theorem Keeps.addPiece_some (h : Keeps bounds tree ranges) {start end_ : Address}
    (hadd : tree.addPiece fuel start end_ = some tree') : ∃ ranges', Keeps bounds tree' ranges' := by
  unfold Node.addPiece at hadd
  split at hadd
  · exact h.addBetween_some hfuel hadd
  · obtain rfl := Option.some.inj hadd
    exact ⟨ranges, h⟩

omit hfuel in
theorem Keeps.remove_some (h : Keeps bounds tree ranges) {result : Bool} (hrem : tree.remove r = some (tree', result)) :
    ∃ ranges', Keeps bounds tree' ranges' := by
  by_cases hr : r ∈ ranges
  · obtain ⟨tree₁, hrem₁, h₁⟩ := h.remove hr
    obtain rfl : tree₁ = tree' := congrArg Prod.fst (Option.some.inj (hrem₁.symm.trans hrem))
    exact ⟨_, h₁⟩
  · by_cases hproper : r.Proper
    · obtain ⟨tree₁, hrem₁, hok, htotal, hperm⟩ := Node.remove_spec hproper tree h.bounded.ok
      obtain rfl : tree₁ = tree' := congrArg Prod.fst (Option.some.inj (hrem₁.symm.trans hrem))
      refine ⟨ranges.erase r, ⟨hok, htotal.trans h.bounded.total⟩, hperm.trans (h.perm.erase r), ?_⟩
      exact fun x hx => h.inside x (List.mem_of_mem_erase hx)
    · rw [remove_improper hproper] at hrem
      obtain rfl : tree = tree' := congrArg Prod.fst (Option.some.inj hrem)
      exact ⟨ranges, h⟩

theorem Keeps.cut_some (h : ∃ ranges, Keeps bounds tree ranges) {start end_ : Address}
    (hcut : Node.cut fuel start end_ tree r = some tree') : ∃ ranges', Keeps bounds tree' ranges' := by
  obtain ⟨ranges, h⟩ := h
  simp only [Node.cut, Option.bind_eq_bind, Option.bind_eq_some_iff] at hcut
  obtain ⟨⟨tree₁, result⟩, hrem, tree₂, hfront, hback⟩ := hcut
  obtain ⟨ranges₁, h₁⟩ := h.remove_some hrem
  obtain ⟨ranges₂, h₂⟩ := h₁.addPiece_some hfuel hfront
  exact h₂.addPiece_some hfuel hback

/-- `splitAt` replaces the one range around the point by its two halves, or changes nothing: then several ranges contain
the point, or none is around it. -/
theorem Keeps.splitAt_cases (h : Keeps bounds tree ranges) (p : Address) :
    ∃ tree' result, tree.splitAt fuel p = some (tree', result) ∧
      ((tree' = tree ∧ ((ranges.filter (·.contains p)).length = 1 →
          ∀ r ∈ ranges, ¬ (r.start.toNat < p.toNat ∧ p.toNat < r.getEnd.toNat))) ∨
        ∃ r rest front back, ranges.Perm (r :: rest) ∧ (r.start.toNat < p.toNat ∧ p.toNat < r.getEnd.toNat) ∧
          (front.start = r.start ∧ front.getEnd = p) ∧ (back.start = p ∧ back.getEnd = r.getEnd) ∧
            Keeps bounds tree' (back :: front :: rest)) := by
  have hperm := (Node.findOverlapping_eq p tree h.bounded.ok).trans (h.perm.filter (·.contains p))
  unfold Node.splitAt
  rw [h.bounded.total, Option.bind_eq_bind, Option.bind_some]
  by_cases hp : bounds.contains p = true
  swap
  · refine ⟨tree, false, by simp [hp], .inl ⟨rfl, fun _ r hr hin => hp ?_⟩⟩
    have hrb := Range.containsRange_iff.1 (h.inside r hr)
    rw [Range.contains_iff]
    omega
  rw [hp, Bool.not_true, if_neg Bool.false_ne_true]
  split
  · next r hfound =>
    rw [hfound] at hperm
    have hfilter := (List.singleton_perm.1 hperm).symm
    have hmem : r ∈ ranges ∧ r.contains p = true := List.mem_filter.1 (hfilter ▸ List.mem_singleton_self r)
    have hin := Range.containsRange_iff.1 (h.inside r hmem.1)
    have hrp := Range.contains_iff.1 hmem.2
    split
    · next hcut =>
      simp only [Bool.and_eq_true, bne_iff_ne] at hcut
      have hstart : r.start.toNat < p.toNat := by
        have := BitVec.toNat_inj.not.2 hcut.1
        omega
      obtain ⟨tree₁, hrem, h₁⟩ := h.remove hmem.1
      obtain ⟨tree₂, front, hfront, hfs, hfe, h₂⟩ := h₁.addBetween hfuel hstart hin.1 (hrp.2.le.trans hin.2)
      obtain ⟨tree₃, back, hback, hbs, hbe, h₃⟩ := h₂.addBetween hfuel hrp.2 (hin.1.trans hrp.1) hin.2
      exact ⟨tree₃, true, by simp [hrem, hfront, hback], .inr ⟨r, ranges.erase r, front, back,
        List.perm_cons_erase hmem.1, ⟨hstart, hrp.2⟩, ⟨hfs, hfe⟩, ⟨hbs, hbe⟩, h₃⟩⟩
    · next hkeep =>
      refine ⟨tree, true, rfl, .inl ⟨rfl, fun _ x hx hxp => hkeep ?_⟩⟩
      have hxr : x = r := by
        have hxf : x ∈ ranges.filter (·.contains p) :=
          List.mem_filter.2 ⟨hx, Range.contains_iff.2 ⟨hxp.1.le, hxp.2⟩⟩
        rw [hfilter] at hxf
        exact List.mem_singleton.1 hxf
      rw [Bool.and_eq_true, bne_iff_ne, bne_iff_ne]
      subst hxr
      exact ⟨fun heq => hxp.1.ne (congrArg BitVec.toNat heq.symm), fun heq => hxp.2.ne (congrArg BitVec.toNat heq)⟩
  · next hfound =>
    refine ⟨tree, false, rfl, .inl ⟨rfl, fun hlen => ?_⟩⟩
    rw [← hperm.length_eq, List.length_eq_one_iff] at hlen
    obtain ⟨r, hr⟩ := hlen
    exact absurd hr (hfound r)

theorem Keeps.splitAt_some (h : Keeps bounds tree ranges) {point : Address} {result : Bool}
    (hsplit : tree.splitAt fuel point = some (tree', result)) : ∃ ranges', Keeps bounds tree' ranges' := by
  obtain ⟨tree₁, result₁, hsplit₁, hcases⟩ := h.splitAt_cases hfuel point
  obtain rfl : tree₁ = tree' := congrArg Prod.fst (Option.some.inj (hsplit₁.symm.trans hsplit))
  rcases hcases with ⟨rfl, -⟩ | ⟨r, rest, front, back, -, -, -, -, h'⟩
  · exact ⟨ranges, h⟩
  · exact ⟨_, h'⟩

theorem Keeps.exec_some {call : Call} (h : ∃ ranges, Keeps bounds tree ranges)
    (hexec : (call.exec fuel tree).map Prod.fst = some tree') : ∃ ranges', Keeps bounds tree' ranges' := by
  have hcuts : ∀ {start end_ : Address} {rs : List Range}, rs.foldlM (Node.cut fuel start end_) tree = some tree' →
      ∃ ranges', Keeps bounds tree' ranges' := fun hrun =>
    foldlM_invariant (P := fun _ _ => True) (fun tree => ∃ ranges, Keeps bounds tree ranges)
      (fun _ _ _ h _ hcut => Keeps.cut_some hfuel h hcut) h (along_of_forall (fun _ _ => trivial) _ _) hrun
  obtain ⟨ranges, hkeeps⟩ := h
  cases call with
  | add r =>
    simp only [Call.exec, Option.map_map, Option.map_eq_some_iff] at hexec
    obtain ⟨⟨tree₁, result⟩, hadd, rfl⟩ := hexec
    exact hkeeps.add_some hfuel hadd
  | remove r =>
    simp only [Call.exec, Option.map_map, Option.map_eq_some_iff] at hexec
    obtain ⟨⟨tree₁, result⟩, hrem, rfl⟩ := hexec
    exact hkeeps.remove_some hrem
  | splitAt point =>
    simp only [Call.exec, Option.map_map, Option.map_eq_some_iff] at hexec
    obtain ⟨⟨tree₁, result⟩, hsplit, rfl⟩ := hexec
    exact hkeeps.splitAt_some hfuel hsplit
  | subtract r =>
    simp only [Call.exec, Option.map_map, Option.map_eq_some_iff] at hexec
    obtain ⟨tree₁, hrun, rfl⟩ := hexec
    exact hcuts hrun
  | subtractWithAddendum r addendum =>
    simp only [Call.exec, Option.map_map, Option.map_eq_some_iff] at hexec
    obtain ⟨tree₁, hrun, rfl⟩ := hexec
    exact hcuts hrun
  | _ =>
    obtain rfl := Option.some.inj hexec
    exact ⟨ranges, hkeeps⟩

/-- After any calls the stored ranges are inside the bounds. -/
theorem keeps_of_run {calls : List Call} (hrun : runCalls fuel calls (make bounds) = some tree) :
    Keeps bounds tree tree.inStartOrderTraversal := by
  obtain ⟨ranges, h⟩ := foldlM_invariant (P := fun _ _ => True) (fun tree => ∃ ranges, Keeps bounds tree ranges)
    (fun _ _ _ h _ hexec => Keeps.exec_some hfuel h hexec) ⟨[], keeps_make bounds⟩
    (along_of_forall (fun _ _ => trivial) _ _) hrun
  exact h.of_perm h.perm.symm

/-! ## `complement` -/

omit hfuel in
/-- A range that is visited later ends behind the start of every earlier one. -/
theorem Node.Ok.reaches {tree : Node} (h : tree.Ok) :
    tree.inStartOrderTraversal.Pairwise fun q r => q.start.toNat < r.getEnd.toNat := by
  induction tree with
  | null => exact .nil
  | node total mid lower higher os oe ihl ihh =>
    obtain ⟨hloc, hokl, hokh⟩ := h
    have hstart : ∀ r ∈ lower.inStartOrderTraversal, r.start.toNat < mid.toNat := fun r hr => by
      have h₁ := Range.proper_iff.1 (hokl.proper r hr)
      have h₂ := Range.endsBefore_iff.1 (hloc.lower_stored r hr)
      omega
    have hmid : ∀ r ∈ os, r.start.toNat ≤ mid.toNat ∧ mid.toNat < r.getEnd.toNat :=
      fun r hr => Range.contains_iff.1 (hloc.straddle r hr)
    have hend : ∀ r ∈ higher.inStartOrderTraversal, mid.toNat < r.getEnd.toNat := fun r hr => by
      have h₁ := Range.proper_iff.1 (hokh.proper r hr)
      have h₂ := Range.startsAfter_iff.1 (hloc.higher_stored r hr)
      omega
    refine List.pairwise_append.2 ⟨List.pairwise_append.2 ⟨ihl hokl, ?_, ?_⟩, ihh hokh, ?_⟩
    · refine List.Pairwise.imp_of_mem (fun {q r} hq hr _ => ?_) hloc.start_sorted
      exact (hmid q hq).1.trans_lt (hmid r hr).2
    · exact fun q hq r hr => (hstart q hq).trans (hmid r hr).2
    · intro q hq r hr
      rcases List.mem_append.1 hq with hq | hq
      · exact (hstart q hq).trans (hend r hr)
      · exact (hmid q hq).1.trans_lt (hend r hr)

/-- The gaps of the walk, as numbers. -/
abbrev walkGaps (last stop : Address) (l : List Range) : List (Nat × Nat) :=
  gaps (fun r : Range => r.start.toNat) (fun r => r.getEnd.toNat) stop.toNat last.toNat l

/-- The walk adds the gaps to the new tree. -/
theorem complement_walk (h : Keeps bounds tree ranges) (last : Address) (hlast : bounds.start.toNat ≤ last.toNat)
    {l : List Range} (hproper : ∀ r ∈ l, r.start.toNat < r.getEnd.toNat)
    (hend : ∀ r ∈ l, r.getEnd.toNat ≤ bounds.getEnd.toNat) :
    ∃ s tree' ranges', l.foldlM (Node.complementStep fuel) (tree, last) = some s ∧
      s.1.addPiece fuel s.2 bounds.getEnd = some tree' ∧ Keeps bounds tree' (ranges' ++ ranges) ∧
        ∀ p : Address, (∃ r ∈ ranges', r.contains p = true) ↔
          ∃ g ∈ walkGaps last bounds.getEnd l, g.1 ≤ p.toNat ∧ p.toNat < g.2 := by
  induction l generalizing tree ranges last with
  | nil =>
    obtain ⟨tree', ranges', hadd, hkeeps, hcovers⟩ := h.addPiece hfuel hlast (le_refl bounds.getEnd.toNat)
    refine ⟨(tree, last), tree', ranges', rfl, hadd, hkeeps, fun p => ?_⟩
    rw [hcovers, walkGaps, gaps]
    by_cases hlt : last.toNat < bounds.getEnd.toNat
    · rw [if_pos hlt]
      simp
    · rw [if_neg hlt]
      simp only [List.not_mem_nil, false_and, exists_false, iff_false]
      omega
  | cons r l ih =>
    rw [List.forall_mem_cons] at hproper hend
    have hnext : (if last < r.getEnd then r.getEnd else last).toNat = max last.toNat r.getEnd.toNat := by
      split
      · next hlt => exact (max_eq_right (BitVec.lt_def.1 hlt).le).symm
      · next hge =>
        rw [BitVec.lt_def, not_lt] at hge
        exact (max_eq_left hge).symm
    obtain ⟨tree₁, ranges₁, hadd, h₁, hcovers⟩ := h.addPiece hfuel hlast (hproper.1.le.trans hend.1)
    obtain ⟨s, tree', ranges', hrun, hlastPiece, h₂, hrest⟩ :=
      ih h₁ (if last < r.getEnd then r.getEnd else last) (by omega) hproper.2 hend.2
    refine ⟨s, tree', ranges' ++ ranges₁, ?_, hlastPiece, by rwa [List.append_assoc], fun p => ?_⟩
    · rw [List.foldlM_cons, Node.complementStep, hadd]
      exact hrun
    · rw [walkGaps, mem_gaps_cons, ← hcovers, ← hnext, ← walkGaps, ← hrest]
      simp only [List.mem_append, or_and_right, exists_or]
      exact or_comm

/-- After any calls on an empty tree, `complement` covers the rest of the bounds exactly when no range of the walk that
leaves a gap before it is followed by one that starts in front of it. -/
theorem complement_exact_iff (bounds : Range) (calls : List Call) {tree : Node}
    (hrun : runCalls fuel calls (make bounds) = some tree) :
    (∃ newTree, tree.complement fuel = some newTree ∧
        ∀ p, bounds.contains p = true → (newTree.Covers p ↔ ¬ tree.Covers p)) ↔
      Swept (fun r : Range => r.start.toNat) (fun r => r.getEnd.toNat) bounds.start.toNat tree.inStartOrderTraversal := by
  have h := keeps_of_run hfuel hrun
  have hproper : ∀ r ∈ tree.inStartOrderTraversal, r.start.toNat < r.getEnd.toNat :=
    fun r hr => Range.proper_iff.1 (h.proper r hr)
  have hend : ∀ r ∈ tree.inStartOrderTraversal, r.getEnd.toNat ≤ bounds.getEnd.toNat :=
    fun r hr => (Range.containsRange_iff.1 (h.inside r hr)).2
  obtain ⟨s, newTree, ranges, hwalk, hlast, hkeeps, hcovers⟩ :=
    complement_walk hfuel (keeps_make bounds) bounds.start le_rfl hproper hend
  rw [List.append_nil] at hkeeps
  have hcomplement : tree.complement fuel = some newTree := by
    rw [Node.complement, h.bounded.total, Option.bind_eq_bind, Option.bind_some, hwalk]
    exact hlast
  have hnew : ∀ p, newTree.Covers p ↔ ∃ g ∈ walkGaps bounds.start bounds.getEnd tree.inStartOrderTraversal,
      g.1 ≤ p.toNat ∧ p.toNat < g.2 := fun p => (hkeeps.covers_iff p).trans (hcovers p)
  rw [← gaps_complement_iff hproper hend h.bounded.ok.reaches, hcomplement]
  simp only [Option.some.injEq, exists_eq_left', hnew]
  simp only [Node.Covers, Range.contains_iff]
  constructor
  · intro hall n hn hstop
    have hlt : n < 2 ^ 64 := hstop.trans bounds.getEnd.isLt
    have hp := hall (BitVec.ofNat 64 n)
    rw [BitVec.toNat_ofNat, Nat.mod_eq_of_lt hlt] at hp
    exact hp ⟨hn, hstop⟩
  · exact fun hall p hp => hall p.toNat hp.1 hp.2

omit hfuel in
theorem complement_exact_sample : (∃ tree newTree, runCalls 65 [.add ⟨4, 8⟩, .add ⟨2, 3⟩] (make ⟨0, 16⟩) = some tree ∧
    tree.complement 65 = some newTree ∧
      ∀ p, (⟨0, 16⟩ : Range).contains p = true → (newTree.Covers p ↔ ¬ tree.Covers p)) := by
  cases hrun : runCalls 65 [.add ⟨4, 8⟩, .add ⟨2, 3⟩] (make ⟨0, 16⟩) with
  | none => exact absurd hrun (by decide +kernel)
  | some tree =>
    have hswept : (runCalls 65 [.add ⟨4, 8⟩, .add ⟨2, 3⟩] (make ⟨0, 16⟩)).all fun tree =>
        Swept (fun r : Range => r.start.toNat) (fun r => r.getEnd.toNat) 0 tree.inStartOrderTraversal := by
      decide +kernel
    rw [hrun, Option.all_some, decide_eq_true_iff] at hswept
    obtain ⟨newTree, hcomplement, hcovers⟩ := (complement_exact_iff (by decide) ⟨0, 16⟩ _ hrun).2 hswept
    exact ⟨tree, newTree, rfl, hcomplement, hcovers⟩

omit hfuel in
/-- The range around the midpoint of the tree is visited after the one in the lower half, which is inside it: the
complement begins with the addresses in front of the inner range. -/
theorem inner_range_first : ¬ ∀ tree, runCalls 65 [.add ⟨1, 39⟩, .add ⟨10, 2⟩] (make ⟨0, 64⟩) = some tree →
    ∃ newTree, tree.complement 65 = some newTree ∧
      ∀ p, (⟨0, 64⟩ : Range).contains p = true → (newTree.Covers p ↔ ¬ tree.Covers p) := by
  intro hclaim
  have hboth : ((runCalls 65 [.add ⟨1, 39⟩, .add ⟨10, 2⟩] (make ⟨0, 64⟩)).map fun tree =>
      (tree.inStartOrderTraversal.any (·.contains 5),
        (tree.complement 65).map fun newTree => newTree.inStartOrderTraversal.any (·.contains 5))) =
      some (true, some true) := by decide +kernel
  obtain ⟨tree, hrun, hboth⟩ := Option.map_eq_some_iff.1 hboth
  obtain ⟨newTree, hcomplement, hcovers⟩ := hclaim tree hrun
  rw [hcomplement, Option.map_some, Prod.mk.injEq, Option.some.injEq, List.any_eq_true, List.any_eq_true] at hboth
  exact (hcovers 5 (by decide)).1 hboth.2 hboth.1

/-! ## `subtract`, `splitAt` and `unionWith` -/

/-- In how many of the pieces an address is that `cut` keeps of some ranges: those in front of `start`, and behind
`end_`. -/
abbrev piecesAt (start end_ : Address) (p : Nat) (ranges : List Range) : Nat :=
  depth (fun r : Range => r.start.toNat) (fun _ => start.toNat) p ranges +
    depth (fun _ => end_.toNat) (fun r : Range => r.getEnd.toNat) p ranges

theorem Keeps.cut {start end_ : Address} (h : Keeps bounds tree (r :: ranges))
    (hr : start.toNat < r.getEnd.toNat ∧ r.start.toNat < end_.toNat) :
    ∃ tree' pieces, Node.cut fuel start end_ tree r = some tree' ∧ Keeps bounds tree' (pieces ++ ranges) ∧
      ∀ p, depthAt p pieces = piecesAt start end_ p [r] := by
  have hin := Range.containsRange_iff.1 (h.inside r List.mem_cons_self)
  obtain ⟨tree₁, hrem, h₁⟩ := h.remove List.mem_cons_self
  rw [List.erase_cons_head] at h₁
  obtain ⟨tree₂, front, hfront, h₂, hdepth₂⟩ := h₁.addPiece_depth hfuel hin.1 (hr.1.le.trans hin.2)
  obtain ⟨tree₃, back, hback, h₃, hdepth₃⟩ := h₂.addPiece_depth hfuel (hin.1.trans hr.2.le) hin.2
  refine ⟨tree₃, back ++ front, by simp [Node.cut, hrem, hfront, hback], by rwa [List.append_assoc], fun p => ?_⟩
  rw [depthAt_append, hdepth₂, hdepth₃, piecesAt, depth_cons, depth_cons, depth_nil, depth_nil, Nat.zero_add,
    Nat.zero_add, Nat.add_comm]

/-- `cut` of several ranges. -/
theorem Keeps.cuts {start end_ : Address} {found : List Range} (h : Keeps bounds tree (found ++ ranges))
    (hfound : ∀ r ∈ found, start.toNat < r.getEnd.toNat ∧ r.start.toNat < end_.toNat) :
    ∃ tree' pieces, found.foldlM (Node.cut fuel start end_) tree = some tree' ∧ Keeps bounds tree' (pieces ++ ranges) ∧
      ∀ p, depthAt p pieces = piecesAt start end_ p found := by
  induction found generalizing tree ranges with
  | nil => exact ⟨tree, [], rfl, h, fun p => rfl⟩
  | cons r found ih =>
    rw [List.forall_mem_cons] at hfound
    obtain ⟨tree₁, pieces₁, hcut, h₁, hdepth₁⟩ := Keeps.cut hfuel h hfound.1
    have hperm : (pieces₁ ++ (found ++ ranges)).Perm (found ++ (pieces₁ ++ ranges)) := by
      rw [← List.append_assoc, ← List.append_assoc]
      exact List.perm_append_comm.append_right ranges
    obtain ⟨tree₂, pieces₂, hrun, h₂, hdepth₂⟩ := ih (h₁.of_perm hperm) hfound.2
    refine ⟨tree₂, pieces₂ ++ pieces₁, ?_, by rwa [List.append_assoc], fun p => ?_⟩
    · rw [List.foldlM_cons, hcut]
      exact hrun
    · rw [depthAt_append, hdepth₁, hdepth₂]
      simp only [piecesAt, depth_cons, depth_nil]
      omega

omit hfuel in
/-- A stored range that `findOverlapping` does not return has no address in common with the range. -/
theorem overlaps_of_contains {range : Range} {p : Nat} (hr : r.start.toNat ≤ p ∧ p < r.getEnd.toNat)
    (hrange : range.start.toNat ≤ p ∧ p < range.getEnd.toNat) : r.overlaps range = true := by
  rw [Range.overlaps_iff]
  omega

/-- The loop of `subtract` and `subtractWithAddendum`: it cuts the stored ranges that overlap the range, and leaves the
others. -/
theorem Keeps.cutsOverlapping (h : Keeps bounds tree ranges) (range : Range) {end_ : Address}
    (hend : range.getEnd.toNat ≤ end_.toNat) :
    ∃ tree' pieces, (tree.findOverlappingRange range).foldlM (Node.cut fuel range.start end_) tree = some tree' ∧
      Keeps bounds tree' (pieces ++ ranges.filter fun r => !r.overlaps range) ∧
        ∀ p, depthAt p pieces = piecesAt range.start end_ p (ranges.filter (·.overlaps range)) := by
  have hfound : (tree.findOverlappingRange range).Perm (ranges.filter (·.overlaps range)) := by
    rw [Node.findOverlappingRange_eq range tree h.bounded.ok]
    exact h.perm.filter _
  have hsplit := (List.filter_append_perm (·.overlaps range) ranges).symm.trans (hfound.symm.append_right _)
  have hreach : ∀ r ∈ tree.findOverlappingRange range,
      range.start.toNat < r.getEnd.toNat ∧ r.start.toNat < end_.toNat := fun r hr => by
    have ho := Range.overlaps_iff.1 (List.mem_filter.1 (hfound.mem_iff.1 hr)).2
    omega
  obtain ⟨tree', pieces, hrun, h', hdepth⟩ := Keeps.cuts hfuel (h.of_perm hsplit) hreach
  exact ⟨tree', pieces, hrun, h', fun p => by rw [hdepth, piecesAt, depth_perm hfound, depth_perm hfound]⟩

theorem Keeps.subtract (h : Keeps bounds tree ranges) (range : Range) :
    ∃ tree', tree.subtract fuel range = some tree' ∧
      ∀ p, tree'.Covers p ↔ tree.Covers p ∧ ¬ range.contains p = true := by
  obtain ⟨tree', pieces, hrun, h', hdepth⟩ := h.cutsOverlapping hfuel range le_rfl
  refine ⟨tree', hrun, fun p => ?_⟩
  have hpieces : (∃ r ∈ pieces, r.contains p = true) ↔ _ := exists_contains_iff p
  rw [hdepth, Nat.add_pos_iff_pos_or_pos, depth_pos_iff, depth_pos_iff] at hpieces
  rw [h'.covers_iff, h.covers_iff]
  simp only [List.mem_append, or_and_right, exists_or, hpieces]
  simp only [List.mem_filter, Bool.not_eq_true', Range.contains_iff]
  constructor
  · rintro ((⟨r, ⟨hr, ho⟩, hp⟩ | ⟨r, ⟨hr, ho⟩, hp⟩) | ⟨r, ⟨hr, hno⟩, hp⟩)
    · rw [Range.overlaps_iff] at ho
      exact ⟨⟨r, hr, by omega⟩, by omega⟩
    · rw [Range.overlaps_iff] at ho
      exact ⟨⟨r, hr, by omega⟩, by omega⟩
    · refine ⟨⟨r, hr, hp⟩, fun hrange => ?_⟩
      rw [overlaps_of_contains hp hrange] at hno
      cases hno
  · rintro ⟨⟨r, hr, hp⟩, hnot⟩
    by_cases ho : r.overlaps range = true
    · by_cases hfront : p.toNat < range.start.toNat
      · exact .inl (.inl ⟨r, ⟨hr, ho⟩, hp.1, hfront⟩)
      · exact .inl (.inr ⟨r, ⟨hr, ho⟩, by omega⟩)
    · exact .inr ⟨r, ⟨hr, Bool.eq_false_iff.2 ho⟩, hp⟩

omit hfuel in
/-- With one range around the point, a second range that the point is in starts there. -/
theorem exists_start {p : Address} (hone : ranges.countP (fun r => r.start < p ∧ p < r.getEnd) = 1)
    (hmany : (ranges.filter (·.contains p)).length ≠ 1) : ∃ r ∈ ranges, r.start = p := by
  by_contra hnone
  push Not at hnone
  have hsame : ranges.countP (fun r => r.start < p ∧ p < r.getEnd) = ranges.countP (·.contains p) := by
    refine List.countP_congr fun r hr => ?_
    have hne := BitVec.toNat_inj.not.2 (hnone r hr)
    rw [decide_eq_true_iff, Range.contains_iff, BitVec.lt_def, BitVec.lt_def]
    omega
  rw [hsame, List.countP_eq_length_filter] at hone
  exact hmany hone

/-- `splitAt` covers what it covered; a point inside one range becomes a boundary. -/
theorem Keeps.splitAt (h : Keeps bounds tree tree.inStartOrderTraversal) (p : Address) :
    ∃ tree' result, tree.splitAt fuel p = some (tree', result) ∧ (∀ q, tree'.Covers q ↔ tree.Covers q) ∧
      (tree.inStartOrderTraversal.countP (fun r => r.start < p ∧ p < r.getEnd) = 1 →
        ∃ r ∈ tree'.inStartOrderTraversal, r.start = p) := by
  obtain ⟨tree', result, hsplit, hcases⟩ := h.splitAt_cases hfuel p
  refine ⟨tree', result, hsplit, ?_⟩
  rcases hcases with ⟨rfl, hnone⟩ | ⟨r, rest, front, back, hperm, hrp, hfront, hback, h'⟩
  · refine ⟨fun q => Iff.rfl, fun hone => exists_start hone fun hlen => ?_⟩
    obtain ⟨r, hr, hin⟩ := List.countP_pos_iff.1 (hone ▸ Nat.one_pos)
    rw [decide_eq_true_iff, BitVec.lt_def, BitVec.lt_def] at hin
    exact hnone hlen r hr hin
  · refine ⟨fun q => ?_, fun _ => ⟨back, h'.perm.mem_iff.2 List.mem_cons_self, hback.1⟩⟩
    have hold : tree.Covers q ↔ r.contains q = true ∨ ∃ x ∈ rest, x.contains q = true := by
      rw [Node.Covers, ← List.exists_mem_cons_iff (p := fun x : Range => x.contains q = true)]
      exact exists_congr fun _ => and_congr_left fun _ => hperm.mem_iff
    rw [h'.covers_iff, hold, List.exists_mem_cons_iff, List.exists_mem_cons_iff, ← or_assoc]
    refine or_congr_left ?_
    rw [Range.contains_iff, Range.contains_iff, Range.contains_iff, hfront.1, hfront.2, hback.1, hback.2]
    omega

/-- Adding one range after the other stores those that are inside the bounds. -/
theorem Keeps.addAll (h : Keeps bounds tree ranges) {rs : List Range}
    (hproper : ∀ r ∈ rs, bounds.containsRange r = true → r.Proper) :
    ∃ tree', rs.foldlM (fun tree r => (tree.add fuel r).map Prod.fst) tree = some tree' ∧
      Keeps bounds tree' ((rs.filter bounds.containsRange).reverse ++ ranges) := by
  induction rs generalizing tree ranges with
  | nil => exact ⟨tree, rfl, h⟩
  | cons r rs ih =>
    rw [List.forall_mem_cons] at hproper
    obtain ⟨tree₁, hadd, h₁⟩ := h.add hfuel hproper.1
    obtain ⟨tree', hrun, h'⟩ := ih h₁ hproper.2
    refine ⟨tree', by rw [List.foldlM_cons, hadd]; exact hrun, ?_⟩
    by_cases hin : bounds.containsRange r = true
    · rw [if_pos hin] at h'
      rw [List.filter_cons_of_pos hin, List.reverse_cons, List.append_assoc]
      exact h'
    · rw [if_neg hin] at h'
      rw [List.filter_cons_of_neg hin]
      exact h'

/-- `unionWith` adds the ranges inside the bounds. -/
theorem Keeps.unionWith (h : Keeps bounds tree ranges) {otherTree : Node}
    (hproper : ∀ r ∈ otherTree.inStartOrderTraversal, r.Proper) :
    ∃ tree', tree.unionWith fuel otherTree = some tree' ∧ ∀ p, tree'.Covers p ↔
      tree.Covers p ∨ ∃ r ∈ otherTree.inStartOrderTraversal, bounds.containsRange r = true ∧ r.contains p = true := by
  obtain ⟨tree', hrun, h'⟩ := h.addAll hfuel fun r hr _ => hproper r hr
  refine ⟨tree', hrun, fun p => ?_⟩
  rw [h'.covers_iff, h.covers_iff]
  simp only [List.mem_append, List.mem_reverse, List.mem_filter, or_and_right, exists_or, and_assoc]
  exact or_comm

/-- After any calls on an empty tree: `subtract` leaves what is not in the range, `splitAt` keeps what is covered and
makes a point inside one range the start of a range, and `unionWith` adds the ranges of the other tree that are
inside the bounds. -/
theorem coverage_exact (bounds : Range) (calls : List Call) {tree : Node}
    (hrun : runCalls fuel calls (make bounds) = some tree) :
    (∀ range, ∃ tree', tree.subtract fuel range = some tree' ∧
      ∀ q, tree'.Covers q ↔ tree.Covers q ∧ ¬ range.contains q = true) ∧
    (∀ p, ∃ tree' result, tree.splitAt fuel p = some (tree', result) ∧ (∀ q, tree'.Covers q ↔ tree.Covers q) ∧
      (tree.inStartOrderTraversal.countP (fun r => r.start < p ∧ p < r.getEnd) = 1 →
        ∃ r ∈ tree'.inStartOrderTraversal, r.start = p)) ∧
    ∀ (otherBounds : Range) (otherCalls : List Call) (otherTree : Node),
      runCalls fuel otherCalls (make otherBounds) = some otherTree →
        ∃ tree', tree.unionWith fuel otherTree = some tree' ∧ ∀ q, tree'.Covers q ↔ tree.Covers q ∨
          ∃ r ∈ otherTree.inStartOrderTraversal, bounds.containsRange r = true ∧ r.contains q = true := by
  have h := keeps_of_run hfuel hrun
  refine ⟨fun range => h.subtract hfuel range, fun p => h.splitAt hfuel p, fun otherBounds otherCalls otherTree hother => ?_⟩
  exact h.unionWith hfuel (keeps_of_run hfuel hother).proper

omit hfuel in
theorem coverage_exact_sample : ∃ tree tree' result, runCalls 65 [.add ⟨4, 8⟩] (make ⟨0, 16⟩) = some tree ∧
    tree.splitAt 65 6 = some (tree', result) ∧ ∃ r ∈ tree'.inStartOrderTraversal, r.start = 6 := by
  cases hrun : runCalls 65 [.add ⟨4, 8⟩] (make ⟨0, 16⟩) with
  | none => exact absurd hrun (by decide +kernel)
  | some tree =>
    have hone : (runCalls 65 [.add ⟨4, 8⟩] (make ⟨0, 16⟩)).all fun tree =>
        tree.inStartOrderTraversal.countP (fun r => r.start < 6 ∧ 6 < r.getEnd) = 1 := by decide +kernel
    rw [hrun, Option.all_some, decide_eq_true_iff] at hone
    obtain ⟨tree', result, hsplit, -, hboundary⟩ := (coverage_exact (by decide) ⟨0, 16⟩ _ hrun).2.1 6
    exact ⟨tree, tree', result, rfl, hsplit, hboundary hone⟩

omit hfuel in
/-- A range of the other tree that sticks out of the bounds is left out, also the part inside them. -/
theorem outside_range_left_out : ¬ ∀ tree otherTree, runCalls 65 [] (make ⟨0, 16⟩) = some tree →
    runCalls 65 [.add ⟨8, 16⟩] (make ⟨0, 32⟩) = some otherTree →
      ∃ tree', tree.unionWith 65 otherTree = some tree' ∧
        ∀ q, (⟨0, 16⟩ : Range).contains q = true → (tree'.Covers q ↔ tree.Covers q ∨ otherTree.Covers q) := by
  intro hclaim
  have hother : ((runCalls 65 [.add ⟨8, 16⟩] (make ⟨0, 32⟩)).map fun otherTree =>
      (otherTree.inStartOrderTraversal.any (·.contains 8),
        ((make ⟨0, 16⟩).unionWith 65 otherTree).map fun tree' => tree'.inStartOrderTraversal.any (·.contains 8))) =
      some (true, some false) := by decide +kernel
  obtain ⟨otherTree, hrun, hother⟩ := Option.map_eq_some_iff.1 hother
  obtain ⟨tree', hunion, hcovers⟩ := hclaim (make ⟨0, 16⟩) otherTree rfl hrun
  rw [hunion, Option.map_some, Prod.mk.injEq, Option.some.injEq, List.any_eq_true, ← Bool.not_eq_true,
    List.any_eq_true] at hother
  exact hother.2 ((hcovers 8 (by decide)).2 (.inr hother.1))

end Adding

end Egalito.IntervalTree
