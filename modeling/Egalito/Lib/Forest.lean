import Mathlib.Logic.Relation
import Mathlib.Tactic
/-!
# Forests of parents

Elements that point to a parent, a root to itself, and what an edge from one root to
another changes: the two trees become one. Whichever of the two roots gets the other
as its parent, the elements of a tree are those that the edges so far connect.
-/

open Function Relation

namespace Egalito.Lib

variable {α : Type}

/-! ## Roots -/

/-- A path of this length ends in a root. -/
def RootedAt (parent : α → α) : Nat → α → Prop
  | 0, x => parent x = x
  | count + 1, x => RootedAt parent count (parent x)

theorem rootedAt_root {parent : α → α} {x : α} (h : parent x = x) (count : Nat) : RootedAt parent count x := by
  induction count with
  | zero => exact h
  | succ count ih => rwa [RootedAt, h]

theorem RootedAt.mono {parent : α → α} {count count' : Nat} {x : α} (h : RootedAt parent count x)
    (hle : count ≤ count') : RootedAt parent count' x := by
  induction count generalizing x count' with
  | zero => exact rootedAt_root h _
  | succ count ih =>
    obtain ⟨more, rfl⟩ : ∃ more, count' = more + 1 := ⟨count' - 1, by omega⟩
    rw [RootedAt] at h ⊢
    exact ih h (by omega)

theorem rootedAt_iff_iterate {parent : α → α} {count : Nat} {x : α} :
    RootedAt parent count x ↔ parent (parent^[count] x) = parent^[count] x := by
  induction count generalizing x with
  | zero => rfl
  | succ count ih => rw [RootedAt, ih, iterate_succ_apply]

/-- The path from an element ends in this root. -/
inductive LeadsTo (parent : α → α) : α → α → Prop
  | root {x : α} : parent x = x → LeadsTo parent x x
  | step {x r : α} : LeadsTo parent (parent x) r → LeadsTo parent x r

namespace LeadsTo

variable {parent : α → α} {x r s : α}

theorem isRoot (h : LeadsTo parent x r) : parent r = r := by
  induction h with
  | root hx => exact hx
  | step _ ih => exact ih

theorem eq_of_root (hx : parent x = x) (h : LeadsTo parent x r) : r = x := by
  induction h with
  | root => rfl
  | step _ ih =>
    rw [hx] at ih
    exact ih hx

theorem unique (h : LeadsTo parent x r) (h' : LeadsTo parent x s) : s = r := by
  induction h with
  | root hx => exact eq_of_root hx h'
  | step h ih =>
    cases h' with
    | root hx =>
      rw [hx] at h
      exact (eq_of_root hx h).symm
    | step h' => exact ih h'

theorem iterate (h : LeadsTo parent x r) (k : Nat) : LeadsTo parent (parent^[k] x) r := by
  induction k generalizing x with
  | zero => exact h
  | succ k ih =>
    rw [iterate_succ_apply]
    cases h with
    | root hx => exact ih (by rw [hx]; exact .root hx)
    | step h => exact ih h

theorem exists_iterate (h : LeadsTo parent x r) : ∃ k, parent^[k] x = r := by
  induction h with
  | root => exact ⟨0, rfl⟩
  | step _ ih =>
    obtain ⟨k, hk⟩ := ih
    exact ⟨k + 1, hk⟩

end LeadsTo

theorem RootedAt.leadsTo {parent : α → α} {count : Nat} {x : α} (h : RootedAt parent count x) :
    ∃ r, LeadsTo parent x r := by
  induction count generalizing x with
  | zero => exact ⟨x, .root h⟩
  | succ count ih =>
    obtain ⟨r, hr⟩ := ih h
    exact ⟨r, .step hr⟩

/-- An element that a path from it comes back to is a root. -/
theorem LeadsTo.root_of_cycle {parent : α → α} {x r : α} (h : LeadsTo parent x r) {k : Nat}
    (hcycle : parent^[k + 1] x = x) : parent x = x := by
  obtain ⟨rounds, hrounds⟩ := h.exists_iterate
  have hback : ∀ n, parent^[(k + 1) * n] x = x := fun n => by
    rw [iterate_mul]
    exact iterate_fixed hcycle n
  -- going round often enough passes the root, and a root is not left again
  have hroot : parent^[(k + 1) * rounds] x = r := by
    rw [show (k + 1) * rounds = k * rounds + rounds by ring, iterate_add_apply, hrounds]
    exact iterate_fixed h.isRoot _
  rw [hback] at hroot
  rw [hroot]
  exact h.isRoot

/-! ## An edge between two roots -/

section Edge

variable [DecidableEq α] {parent : α → α} {a b : α}

theorem update_root (hb : parent b = b) : update parent a b b = b := by
  rw [update_apply]
  split_ifs
  · rfl
  · exact hb

/-- A new edge to a root makes a path longer by one at most. -/
theorem RootedAt.update {count : Nat} {x : α} (hb : parent b = b) (h : RootedAt parent count x) :
    RootedAt (update parent a b) (count + 1) x := by
  have ha' : ∀ count, RootedAt (Function.update parent a b) (count + 1) a := by
    intro count
    rw [RootedAt, update_self]
    exact rootedAt_root (update_root hb) count
  induction count generalizing x with
  | zero =>
    by_cases hx : x = a
    · exact hx ▸ ha' 0
    · have hx' : Function.update parent a b x = x := by rw [update_of_ne hx]; exact h
      exact rootedAt_root hx' 1
  | succ count ih =>
    by_cases hx : x = a
    · exact hx ▸ ha' (count + 1)
    · rw [RootedAt, update_of_ne hx]
      exact ih h

/-- What led to the root that got a parent leads to the parent's root. -/
theorem LeadsTo.update {x r : α} (ha : parent a = a) (hb : parent b = b) (h : LeadsTo parent x r) :
    LeadsTo (update parent a b) x (if r = a then b else r) := by
  induction h with
  | @root x hx =>
    split_ifs with hxa
    · subst hxa
      refine .step ?_
      rw [update_self]
      exact .root (update_root hb)
    · exact .root (by rw [update_of_ne hxa, hx])
  | @step x r h ih =>
    by_cases hxa : x = a
    · subst hxa
      rwa [ha] at ih
    · refine .step ?_
      rwa [update_of_ne hxa]

end Edge

/-! ## What the edges connect -/

/-- Connected by these pairs. -/
def Joined (joins : List (α × α)) : α → α → Prop := EqvGen fun x y => (x, y) ∈ joins

theorem Joined.mono {joins joins' : List (α × α)} (hsub : joins ⊆ joins') {x y : α} (h : Joined joins x y) :
    Joined joins' x y := EqvGen.mono (fun _ _ hmem => hsub hmem) x y h

theorem joined_nil {x y : α} : Joined [] x y ↔ x = y := by
  constructor
  · intro h
    induction h with
    | rel _ _ hmem => exact absurd hmem List.not_mem_nil
    | refl => rfl
    | symm _ _ _ ih => exact ih.symm
    | trans _ _ _ _ _ ih ih' => exact ih.trans ih'
  · rintro rfl
    exact .refl _

/-- The pairs connect only elements that are in one of them. -/
theorem Joined.mem {joins : List (α × α)} {S : α → Prop} (hjoins : ∀ j ∈ joins, S j.1 ∧ S j.2) {x y : α}
    (h : Joined joins x y) : x = y ∨ (S x ∧ S y) := by
  induction h with
  | rel _ _ hmem => exact Or.inr (hjoins _ hmem)
  | refl => exact Or.inl rfl
  | symm _ _ _ ih => exact ih.imp Eq.symm And.symm
  | trans _ _ _ _ _ ih ih' =>
    rcases ih with rfl | ⟨hx, hy⟩
    · exact ih'
    · rcases ih' with rfl | ⟨-, hz⟩
      · exact Or.inr ⟨hx, hy⟩
      · exact Or.inr ⟨hx, hz⟩

/-- When the elements with one root are the ones that are connected, an edge between the roots of
two elements keeps it so, with these two connected as well. -/
theorem joined_concat [DecidableEq α] {root : α → α} {joins : List (α × α)}
    (h : ∀ x y, root x = root y ↔ Joined joins x y) {p q s t : α} (hst : (s, t) = (p, q) ∨ (s, t) = (q, p))
    (x y : α) :
    (if root x = root s then root t else root x) = (if root y = root s then root t else root y) ↔
      Joined (joins ++ [(p, q)]) x y := by
  have hold : ∀ x y, root x = root y → Joined (joins ++ [(p, q)]) x y := fun x y heq =>
    ((h x y).1 heq).mono (List.subset_append_left _ _)
  have hpq : Joined (joins ++ [(p, q)]) p q := .rel _ _ (List.mem_append_right _ (List.mem_singleton_self _))
  have hedge : Joined (joins ++ [(p, q)]) s t := by
    rcases hst with hst | hst
    · obtain ⟨rfl, rfl⟩ := Prod.mk.inj hst
      exact hpq
    · obtain ⟨rfl, rfl⟩ := Prod.mk.inj hst
      exact hpq.symm
  constructor
  · intro heq
    split_ifs at heq with hx hy hy
    · exact hold x y (hx.trans hy.symm)
    · exact ((hold x s hx).trans _ _ _ hedge).trans _ _ _ (hold t y heq)
    · exact ((hold x t heq).trans _ _ _ hedge.symm).trans _ _ _ (hold s y hy.symm)
    · exact hold x y heq
  · intro hjoined
    induction hjoined with
    | refl => rfl
    | symm _ _ _ ih => exact ih.symm
    | trans _ _ _ _ _ ih ih' => exact ih.trans ih'
    | rel x y hmem =>
      rcases List.mem_append.1 hmem with hmem | hmem
      · rw [(h x y).2 (.rel _ _ hmem)]
      · obtain ⟨rfl, rfl⟩ := Prod.mk.inj (List.mem_singleton.1 hmem)
        rcases hst with hst | hst
        · obtain ⟨rfl, rfl⟩ := Prod.mk.inj hst
          rw [if_pos rfl, ite_self]
        · obtain ⟨rfl, rfl⟩ := Prod.mk.inj hst
          rw [if_pos rfl, ite_self]

end Egalito.Lib
