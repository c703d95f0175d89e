import Mathlib.Tactic
/-!
# Schedules under dependencies

Elements are taken one after the other; an element can be taken when everything
it depends on was taken before. `Schedules` is every way to do that to the end.
-/

namespace Egalito.Lib

variable {α : Type} [DecidableEq α]

/-- `available` is taken in `order`, after `visited`. -/
inductive Schedules (deps : α → α → Prop) : List α → List α → List α → Prop
  | done {visited} : Schedules deps [] visited []
  | take {available visited order a} : a ∈ available → (∀ b, deps a b → b ∈ visited) →
    Schedules deps (available.erase a) (a :: visited) order → Schedules deps available visited (a :: order)

variable {deps : α → α → Prop} {available visited order : List α} {a b : α}

theorem Schedules.perm (h : Schedules deps available visited order) : order.Perm available := by
  induction h with
  | done => exact .nil
  | take ha _ _ ih => exact (ih.cons _).trans (List.perm_cons_erase ha).symm

/-- In a schedule the dependencies of an element stand in front of it. -/
theorem Schedules.before (h : Schedules deps available visited order) {front back : List α}
    (horder : order = front ++ a :: back) (hdep : deps a b) : b ∈ visited ∨ b ∈ front := by
  induction h generalizing front with
  | done => simp at horder
  | take _ hready _ ih =>
    cases front with
    | nil =>
      cases horder
      exact .inl (hready b hdep)
    | cons x front =>
      cases horder
      rcases ih rfl with hb | hb
      · rcases List.mem_cons.1 hb with rfl | hb
        · exact .inr List.mem_cons_self
        · exact .inl hb
      · exact .inr (List.mem_cons_of_mem _ hb)

/-- In a schedule nothing depends on what follows. -/
theorem Schedules.pairwise (h : Schedules deps available visited order) (hnodup : available.Nodup)
    (hdisjoint : ∀ x ∈ available, x ∉ visited) : order.Pairwise fun x y => ¬ deps x y := by
  induction h with
  | done => exact .nil
  | take ha hready hrest ih =>
    refine .cons (fun b hb hab => ?_) (ih (hnodup.erase _) fun x hx hmem => ?_)
    · exact hdisjoint b (List.mem_of_mem_erase (hrest.perm.mem_iff.1 hb)) (hready b hab)
    · rw [hnodup.mem_erase_iff] at hx
      rcases List.mem_cons.1 hmem with rfl | hmem
      · exact hx.1 rfl
      · exact hdisjoint x hx.2 hmem

/-- Every order of the elements in which the dependencies come first is a schedule. -/
theorem schedules_of_perm (hperm : order.Perm available)
    (hbefore : ∀ front a back, order = front ++ a :: back → ∀ b, deps a b → b ∈ visited ∨ b ∈ front) :
    Schedules deps available visited order := by
  induction order generalizing available visited with
  | nil =>
    rw [List.nil_perm.1 hperm]
    exact .done
  | cons a order ih =>
    refine .take (hperm.mem_iff.1 List.mem_cons_self) (fun b hb => ?_) (ih ?_ fun front x back horder b hb => ?_)
    · exact (hbefore [] a order rfl b hb).resolve_right List.not_mem_nil
    · have h := hperm.erase a
      rwa [List.erase_cons_head] at h
    · rcases hbefore (a :: front) x back (by rw [horder]; rfl) b hb with hb | hb
      · exact .inl (List.mem_cons_of_mem _ hb)
      · rcases List.mem_cons.1 hb with rfl | hb
        · exact .inl List.mem_cons_self
        · exact .inr hb

omit [DecidableEq α] in
/-- Where dependencies lead downwards, something is always ready. -/
theorem exists_ready (rank : α → Nat) (hrank : ∀ a b, deps a b → rank b < rank a)
    (hknown : ∀ a ∈ available, ∀ b, deps a b → b ∈ visited ∨ b ∈ available) (hne : available ≠ []) :
    ∃ a ∈ available, ∀ b, deps a b → b ∈ visited := by
  obtain ⟨a, hmin⟩ := Option.ne_none_iff_exists'.1 (mt List.argmin_eq_none.1 hne : List.argmin rank available ≠ none)
  have ha := List.argmin_mem hmin
  refine ⟨a, ha, fun b hb => (hknown a ha b hb).resolve_right fun hmem => ?_⟩
  exact absurd (List.le_of_mem_argmin hmem hmin) (Nat.not_le_of_lt (hrank a b hb))

/-- An order in which nothing depends on itself or on what follows is a schedule. -/
theorem schedules_of_pairwise {l : List α} (hperm : order.Perm l) (hirrefl : ∀ x, ¬ deps x x)
    (hclosed : ∀ x ∈ l, ∀ y, deps x y → y ∈ l) (horder : order.Pairwise fun x y => ¬ deps x y) :
    Schedules deps l [] order := by
  refine schedules_of_perm hperm fun front x back heq y hxy => .inr ?_
  have hx : x ∈ order := by rw [heq]; simp
  have hy : y ∈ front ++ x :: back := heq ▸ hperm.mem_iff.2 (hclosed x (hperm.mem_iff.1 hx) y hxy)
  rw [heq, List.pairwise_append, List.pairwise_cons] at horder
  rcases List.mem_append.1 hy with hy | hy
  · exact hy
  · rcases List.mem_cons.1 hy with rfl | hy
    · exact absurd hxy (hirrefl y)
    · exact absurd hxy (horder.2.1.1 y hy)

/-- What does not depend on an element can be scheduled before it: first `a` with everything it
depends on, then the rest. -/
theorem exists_schedule_before {l : List α} (hl : l.Pairwise fun x y => ¬ deps x y) (hirrefl : ∀ x, ¬ deps x x)
    (hclosed : ∀ x ∈ l, ∀ y, deps x y → y ∈ l) (htrans : ∀ x y z, deps x y → deps y z → deps x z)
    (ha : a ∈ l) (hb : b ∈ l) (hab : b ≠ a) (hdep : ¬ deps a b) :
    ∃ front back, Schedules deps l [] (front ++ back) ∧ a ∈ front ∧ b ∈ back := by
  classical
  refine ⟨l.filter (fun x => x = a ∨ deps a x), l.filter (fun x => ¬ (x = a ∨ deps a x)),
    schedules_of_pairwise ?_ hirrefl hclosed (List.pairwise_append.2 ⟨hl.filter _, hl.filter _, ?_⟩), ?_, ?_⟩
  · simpa using List.filter_append_perm (fun x => decide (x = a ∨ deps a x)) l
  · intro x hx y hy hxy
    simp only [List.mem_filter, decide_eq_true_eq] at hx hy
    refine hy.2 (.inr ?_)
    rcases hx.2 with rfl | hax
    · exact hxy
    · exact htrans a x y hax hxy
  · simp [ha]
  · simp [hb, hab, hdep]

end Egalito.Lib
