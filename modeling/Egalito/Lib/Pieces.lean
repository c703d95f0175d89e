import Mathlib.Data.List.Count
import Mathlib.Order.Lattice
import Mathlib.Tactic
/-!
# Cutting an interval into pieces

Half-open intervals of a linear order, by how many of them a point is in. An
interval that is cut at points one after the other ends up as the intervals
between neighbouring points, whatever the order of the cuts was.
-/

namespace Egalito.Lib

variable {ι α : Type} [LinearOrder α] (lo hi : ι → α)

/-- How many of the intervals the point is in. -/
def depth (p : α) (l : List ι) : Nat := l.countP fun x => lo x ≤ p ∧ p < hi x

/-- The intervals have no point in common. -/
def Separate (x y : ι) : Prop := hi x ≤ lo y ∨ hi y ≤ lo x

/-- The interval from `a` to `b` lies between neighbouring points, or the ends `s` and `e` of the whole. -/
structure IsPiece (s e : α) (P : Set α) (a b : α) : Prop where
  start_le : s ≤ a
  lt : a < b
  le_end : b ≤ e
  left : a = s ∨ a ∈ P
  right : b = e ∨ b ∈ P
  whole : ∀ p ∈ P, ¬ (a < p ∧ p < b)

/-- The intervals are pieces, and cover each point of the whole once. -/
structure Partitions (s e : α) (P : Set α) (l : List ι) : Prop where
  pieces : ∀ x ∈ l, IsPiece s e P (lo x) (hi x)
  once : ∀ p, depth lo hi p l = if s ≤ p ∧ p < e then 1 else 0

variable {lo hi} {s e a b p : α} {P : Set α} {l l' : List ι} {x y z : ι}

/-! ## Depth -/

@[simp] theorem depth_nil : depth lo hi p [] = 0 := rfl

@[simp] theorem depth_cons : depth lo hi p (x :: l) = depth lo hi p l + if lo x ≤ p ∧ p < hi x then 1 else 0 := by
  rw [depth, List.countP_cons, depth]
  simp only [decide_eq_true_eq]

@[simp] theorem depth_append : depth lo hi p (l ++ l') = depth lo hi p l + depth lo hi p l' :=
  List.countP_append

theorem depth_perm (h : l.Perm l') : depth lo hi p l = depth lo hi p l' := h.countP_eq _

theorem depth_pos_iff : 0 < depth lo hi p l ↔ ∃ x ∈ l, lo x ≤ p ∧ p < hi x := by
  simp only [depth, List.countP_pos_iff, decide_eq_true_eq]

theorem depth_eq_zero_iff : depth lo hi p l = 0 ↔ ∀ x ∈ l, ¬ (lo x ≤ p ∧ p < hi x) := by
  simp only [depth, List.countP_eq_zero, decide_eq_true_eq]

/-- Intervals that are not empty are separate when no point is in two of them. -/
theorem separate_iff_depth_le_one (hproper : ∀ x ∈ l, lo x < hi x) :
    l.Pairwise (Separate lo hi) ↔ ∀ p, depth lo hi p l ≤ 1 := by
  induction l with
  | nil => simp
  | cons x l ih =>
    rw [List.forall_mem_cons] at hproper
    obtain ⟨hx, hl⟩ := hproper
    simp only [List.pairwise_cons, ih hl, depth_cons]
    constructor
    · rintro ⟨hsep, hle⟩ p
      split
      · next hp =>
        have hzero : depth lo hi p l = 0 := depth_eq_zero_iff.2 fun y hy hyp => by
          rcases hsep y hy with h | h
          · exact (hp.2.trans_le (h.trans hyp.1)).false
          · exact (hyp.2.trans_le (h.trans hp.1)).false
        rw [hzero]
      · exact hle p
    · intro h
      refine ⟨fun y hy => ?_, fun p => (Nat.le_add_right _ _).trans (h p)⟩
      -- otherwise the later of the two starts is in both
      by_contra hsep
      rw [Separate, not_or, not_le, not_le] at hsep
      have hboth := h (max (lo x) (lo y))
      rw [if_pos ⟨le_max_left _ _, max_lt hx hsep.1⟩] at hboth
      have hpos : 0 < depth lo hi (max (lo x) (lo y)) l :=
        depth_pos_iff.2 ⟨y, hy, le_max_right _ _, max_lt hsep.2 (hl y hy)⟩
      omega

/-- Of separate intervals, a point is in one at most. -/
theorem depth_filter_eq (hle : depth lo hi p l ≤ 1) (hx : x ∈ l) (hp : lo x ≤ p ∧ p < hi x) (keep : ι → Bool) :
    depth lo hi p (l.filter keep) = if keep x then 1 else 0 := by
  obtain ⟨l₁, l₂, rfl⟩ := List.append_of_mem hx
  rw [depth_append, depth_cons, if_pos hp] at hle
  have h₁ : depth lo hi p (l₁.filter keep) = 0 :=
    Nat.le_zero.1 ((List.filter_sublist.countP_le).trans (by rw [← depth]; omega))
  have h₂ : depth lo hi p (l₂.filter keep) = 0 :=
    Nat.le_zero.1 ((List.filter_sublist.countP_le).trans (by rw [← depth]; omega))
  rw [List.filter_append, depth_append, h₁, List.filter_cons]
  split
  · rw [depth_cons, h₂, if_pos hp]
  · rw [h₂]

/-! ## Pieces -/

theorem IsPiece.insert (h : IsPiece s e P a b) (hp : ¬ (a < p ∧ p < b)) : IsPiece s e (insert p P) a b :=
  ⟨h.start_le, h.lt, h.le_end, h.left.imp_right .inr, h.right.imp_right .inr, fun q hq => by
    rcases hq with rfl | hq
    · exact hp
    · exact h.whole q hq⟩

theorem partitions_single (hx : lo x = s ∧ hi x = e) (hlt : s < e) : Partitions lo hi s e ∅ [x] := by
  obtain ⟨rfl, rfl⟩ := hx
  refine ⟨?_, fun p => by simp⟩
  rw [List.forall_mem_singleton]
  exact ⟨le_rfl, hlt, le_rfl, .inl rfl, .inl rfl, fun _ hp => hp.elim⟩

/-- A cut at a point that is inside none of the intervals changes nothing. -/
theorem Partitions.keep (h : Partitions lo hi s e P l) (hp : ∀ x ∈ l, ¬ (lo x < p ∧ p < hi x)) :
    Partitions lo hi s e (insert p P) l :=
  ⟨fun x hx => (h.pieces x hx).insert (hp x hx), h.once⟩

/-- A cut inside one of them. -/
theorem Partitions.split (h : Partitions lo hi s e P (x :: l)) (hp : lo x < p ∧ p < hi x)
    (hy : lo y = lo x ∧ hi y = p) (hz : lo z = p ∧ hi z = hi x) :
    Partitions lo hi s e (insert p P) (z :: y :: l) := by
  obtain ⟨hpieces, honce⟩ := h
  rw [List.forall_mem_cons] at hpieces
  obtain ⟨hx, hl⟩ := hpieces
  refine ⟨?_, fun q => ?_⟩
  · rw [List.forall_mem_cons, List.forall_mem_cons, hy.1, hy.2, hz.1, hz.2]
    refine ⟨?_, ?_, fun w hw => (hl w hw).insert fun hwp => ?_⟩
    · refine ⟨hx.start_le.trans hp.1.le, hp.2, hx.le_end, .inr (.inl rfl), hx.right.imp_right .inr, ?_⟩
      rintro q (rfl | hq) hin
      · exact hin.1.false
      · exact hx.whole q hq ⟨hp.1.trans hin.1, hin.2⟩
    · refine ⟨hx.start_le, hp.1, hp.2.le.trans hx.le_end, hx.left.imp_right .inr, .inr (.inl rfl), ?_⟩
      rintro q (rfl | hq) hin
      · exact hin.2.false
      · exact hx.whole q hq ⟨hin.1, hin.2.trans hp.2⟩
    · -- the point would be in two intervals
      have hone := honce p
      rw [depth_cons, if_pos ⟨hp.1.le, hp.2⟩, if_pos ⟨hx.start_le.trans hp.1.le, hp.2.trans_le hx.le_end⟩] at hone
      have hpos : 0 < depth lo hi p l := depth_pos_iff.2 ⟨w, hw, hwp.1.le, hwp.2⟩
      omega
  · rw [← honce q, depth_cons, depth_cons, depth_cons, hy.1, hy.2, hz.1, hz.2, add_assoc]
    congr 1
    rcases lt_or_ge q p with hqp | hqp
    · rw [if_neg (c := p ≤ q ∧ q < hi x) fun hq => hqp.not_ge hq.1, Nat.add_zero]
      exact if_congr (and_congr_right fun _ => iff_of_true hqp (hqp.trans hp.2)) rfl rfl
    · rw [if_neg (c := lo x ≤ q ∧ q < p) fun hq => hqp.not_gt hq.2, Nat.zero_add]
      exact if_congr (and_congr_left fun _ => iff_of_true hqp (hp.1.le.trans hqp)) rfl rfl

theorem Partitions.perm (h : Partitions lo hi s e P l) (hperm : l.Perm l') : Partitions lo hi s e P l' :=
  ⟨fun x hx => h.pieces x (hperm.mem_iff.2 hx), fun p => by rw [← depth_perm hperm, h.once p]⟩

/-- What the cuts leave are exactly the pieces. -/
theorem Partitions.isPiece_iff (h : Partitions lo hi s e P l) :
    IsPiece s e P a b ↔ ∃ x ∈ l, lo x = a ∧ hi x = b := by
  constructor
  · intro hab
    have hin : s ≤ a ∧ a < e := ⟨hab.start_le, hab.lt.trans_le hab.le_end⟩
    obtain ⟨x, hx, hxa⟩ := depth_pos_iff.1 (show 0 < depth lo hi a l by rw [h.once, if_pos hin]; decide)
    have hpiece := h.pieces x hx
    have hlo : lo x = a := by
      refine le_antisymm hxa.1 (not_lt.1 fun hlt => ?_)
      rcases hab.left with rfl | ha
      · exact (hpiece.start_le.trans_lt hlt).false
      · exact hpiece.whole a ha ⟨hlt, hxa.2⟩
    refine ⟨x, hx, hlo, le_antisymm (not_lt.1 fun hlt => ?_) (not_lt.1 fun hlt => ?_)⟩
    · rcases hab.right with rfl | hb
      · exact (hlt.trans_le hpiece.le_end).false
      · exact hpiece.whole b hb ⟨hlo ▸ hab.lt, hlt⟩
    · rcases hpiece.right with he | hb
      · exact (hlt.trans_le (he ▸ hab.le_end)).false
      · exact hab.whole _ hb ⟨hlo ▸ hpiece.lt, hlt⟩
  · rintro ⟨x, hx, rfl, rfl⟩
    exact h.pieces x hx

end Egalito.Lib
