import Mathlib.Order.Lattice
import Mathlib.Tactic
/-!
# Sweeping over intervals

A walk over half-open intervals that keeps the last end it has seen, and notes
a gap before each interval that starts behind it. The gaps are the complement
when no interval comes after such a gap and reaches back into it.
-/

namespace Egalito.Lib

variable {ι α : Type} [LinearOrder α] (lo hi : ι → α)

/-- The gaps of a walk from `last` to `stop`. -/
def gaps (stop : α) : α → List ι → List (α × α)
  | last, [] => if last < stop then [(last, stop)] else []
  | last, x :: l => (if last < lo x then [(last, lo x)] else []) ++ gaps stop (max last (hi x)) l

/-- No interval behind a gap starts before the end of the gap. -/
def Swept : α → List ι → Prop
  | _, [] => True
  | last, x :: l => (last < lo x → ∀ y ∈ l, lo x ≤ lo y) ∧ Swept (max last (hi x)) l

instance decidableSwept : (last : α) → (l : List ι) → Decidable (Swept lo hi last l)
  | _, [] => inferInstanceAs (Decidable True)
  | last, x :: l =>
    let _ := decidableSwept (max last (hi x)) l
    inferInstanceAs (Decidable ((last < lo x → ∀ y ∈ l, lo x ≤ lo y) ∧ Swept lo hi (max last (hi x)) l))

variable {lo hi} {stop last p : α} {l : List ι}

/-- The part of the gaps that the first interval makes. -/
theorem mem_gaps_cons {x : ι} : (∃ g ∈ gaps lo hi stop last (x :: l), g.1 ≤ p ∧ p < g.2) ↔
    (last ≤ p ∧ p < lo x) ∨ ∃ g ∈ gaps lo hi stop (max last (hi x)) l, g.1 ≤ p ∧ p < g.2 := by
  rw [gaps]
  by_cases hlt : last < lo x
  · rw [if_pos hlt, List.singleton_append, List.exists_mem_cons_iff]
  · have hnot : ¬ (last ≤ p ∧ p < lo x) := fun h => hlt (h.1.trans_lt h.2)
    rw [if_neg hlt, List.nil_append, or_iff_right hnot]

theorem le_of_mem_gaps (hproper : ∀ x ∈ l, lo x < hi x) {g : α × α} (hg : g ∈ gaps lo hi stop last l) : last ≤ g.1 := by
  induction l generalizing last with
  | nil =>
    rw [gaps] at hg
    split at hg
    · rw [List.mem_singleton.1 hg]
    · cases hg
  | cons x l ih =>
    rw [gaps] at hg
    rcases List.mem_append.1 hg with hg | hg
    · split at hg
      · rw [List.mem_singleton.1 hg]
      · cases hg
    · exact (le_max_left _ _).trans (ih (fun y hy => hproper y (List.mem_cons_of_mem _ hy)) hg)

/-- The gaps of a walk lie between its ends. -/
theorem between_of_mem_gaps (hproper : ∀ x ∈ l, lo x < hi x) (hstop : ∀ x ∈ l, hi x ≤ stop) {g : α × α}
    (hg : g ∈ gaps lo hi stop last l) : last ≤ g.1 ∧ g.1 < g.2 ∧ g.2 ≤ stop := by
  refine ⟨le_of_mem_gaps hproper hg, ?_⟩
  induction l generalizing last with
  | nil =>
    rw [gaps] at hg
    split at hg
    · next hlt =>
      rw [List.mem_singleton.1 hg]
      exact ⟨hlt, le_rfl⟩
    · cases hg
  | cons x l ih =>
    rw [List.forall_mem_cons] at hproper hstop
    rw [gaps] at hg
    rcases List.mem_append.1 hg with hg | hg
    · split at hg
      · next hlt =>
        rw [List.mem_singleton.1 hg]
        exact ⟨hlt, hproper.1.le.trans hstop.1⟩
      · cases hg
    · exact ih hproper.2 hstop.2 hg

/-- Where every interval ends behind the starts of those before it, the gaps are the complement of the intervals
exactly when none of them reaches back into a gap. -/
theorem gaps_complement_iff (hproper : ∀ x ∈ l, lo x < hi x) (hstop : ∀ x ∈ l, hi x ≤ stop)
    (hreach : l.Pairwise fun x y => lo x < hi y) :
    (∀ p, last ≤ p → p < stop →
      ((∃ g ∈ gaps lo hi stop last l, g.1 ≤ p ∧ p < g.2) ↔ ¬ ∃ x ∈ l, lo x ≤ p ∧ p < hi x)) ↔ Swept lo hi last l := by
  induction l generalizing last with
  | nil =>
    refine iff_of_true (fun p hlast hp => ?_) trivial
    rw [gaps, if_pos (hlast.trans_lt hp)]
    simp [hlast, hp]
  | cons x l ih =>
    rw [List.forall_mem_cons] at hproper hstop
    obtain ⟨hhead, htail⟩ := List.pairwise_cons.1 hreach
    rw [Swept, ← ih hproper.2 hstop.2 htail]
    simp only [mem_gaps_cons, List.exists_mem_cons_iff]
    constructor
    · intro h
      refine ⟨fun hlt y hy => ?_, fun p hlast hp => ?_⟩
      · -- a later interval in the gap would be covered as well
        by_contra hle
        rw [not_le] at hle
        have hp := h (max last (lo y)) (le_max_left _ _)
          (max_lt_iff.2 ⟨hlt.trans (hproper.1.trans_le hstop.1), (hproper.2 y hy).trans_le (hstop.2 y hy)⟩)
        refine hp.1 (.inl ⟨le_max_left _ _, max_lt_iff.2 ⟨hlt, hle⟩⟩) (.inr ⟨y, hy, le_max_right _ _, ?_⟩)
        exact max_lt_iff.2 ⟨hlt.trans (hhead y hy), hproper.2 y hy⟩
      · obtain ⟨hlast, hend⟩ := max_le_iff.1 hlast
        have hx : ¬ (last ≤ p ∧ p < lo x) := fun hin => (hin.2.trans hproper.1).not_ge hend
        have hx' : ¬ (lo x ≤ p ∧ p < hi x) := fun hin => hin.2.not_ge hend
        have hp := h p hlast hp
        rwa [or_iff_right hx, or_iff_right hx'] at hp
    · rintro ⟨hgap, hrest⟩ p hlast hp
      by_cases hlt : p < lo x
      · have hno : ¬ ∃ y ∈ l, lo y ≤ p ∧ p < hi y := by
          rintro ⟨y, hy, hle, -⟩
          exact (hle.trans_lt hlt).not_ge (hgap (hlast.trans_lt hlt) y hy)
        refine iff_of_true (.inl ⟨hlast, hlt⟩) ?_
        rintro (hin | hin)
        · exact hin.1.not_gt hlt
        · exact hno hin
      · rw [not_lt] at hlt
        rw [or_iff_right fun hin => hin.2.not_ge hlt]
        by_cases hend : p < hi x
        · refine iff_of_false ?_ (not_not.2 (.inl ⟨hlt, hend⟩))
          rintro ⟨g, hg, hin⟩
          exact hend.not_ge ((le_max_right last (hi x)).trans ((le_of_mem_gaps hproper.2 hg).trans hin.1))
        · rw [not_lt] at hend
          rw [or_iff_right fun hin => hin.2.not_ge hend]
          exact hrest p (max_le hlast hend) hp

end Egalito.Lib
