import Mathlib.Logic.Relation
import Mathlib.Tactic
import Egalito.Lib.Ordered
/-!
# Strongly connected components

A list of components in which every edge leads into its own component or into
an earlier one, and how such a list grows by one component.
-/

open Relation

namespace Egalito.Lib

variable {α : Type} {E : α → α → Prop}

/-- What is reached from a closed set is in it. -/
theorem mem_of_reach {S : α → Prop} (hS : ∀ u, S u → ∀ v, E u v → S v) {u v : α} (hu : S u)
    (h : ReflTransGen E u v) : S v := by
  induction h with
  | refl => exact hu
  | tail _ hedge ih => exact hS _ ih _ hedge

variable (E) in
/-- The nodes that reach each other. -/
structure IsComponent (c : List α) : Prop where
  nonempty : c ≠ []
  mem_iff : ∀ u ∈ c, ∀ v, v ∈ c ↔ ReflTransGen E u v ∧ ReflTransGen E v u

/-- A set that only leads into itself and into a closed set is a component, when each of its
nodes is connected with one of them. -/
theorem isComponent_of_escape {S : α → Prop} (hS : ∀ u, S u → ∀ v, E u v → S v) {c : List α} {r : α} (hr : r ∈ c)
    (hrS : ¬ S r) (hto : ∀ u ∈ c, ReflTransGen E r u) (hback : ∀ u ∈ c, ReflTransGen E u r)
    (hescape : ∀ u ∈ c, ∀ v, E u v → v ∈ c ∨ S v) : IsComponent E c := by
  refine ⟨List.ne_nil_of_mem hr, fun u hu v => ⟨fun hv => ?_, ?_⟩⟩
  · exact ⟨(hback u hu).trans (hto v hv), (hback v hv).trans (hto u hu)⟩
  · rintro ⟨huv, hvu⟩
    have hclosed : ∀ u, u ∈ c ∨ S u → ∀ v, E u v → v ∈ c ∨ S v := fun u hu v hedge =>
      hu.elim (fun hu => hescape u hu v hedge) fun hu => Or.inr (hS u hu v hedge)
    rcases mem_of_reach hclosed (Or.inl hu) huv with hv | hv
    · exact hv
    · exact absurd (mem_of_reach hS hv (hvu.trans (hback u hu))) hrS

variable (E) in
structure Components (done : List (List α)) : Prop where
  nodup : done.flatten.Nodup
  component : ∀ c ∈ done, IsComponent E c
  backward : ∀ before c after, done = before ++ c :: after → ∀ u ∈ c, ∀ v, E u v → v ∈ c ∨ v ∈ before.flatten

namespace Components

theorem nil : Components E [] := ⟨List.nodup_nil, by simp, by simp⟩

variable {done : List (List α)} (h : Components E done)

include h

theorem closed (u : α) (hu : u ∈ done.flatten) (v : α) (hedge : E u v) : v ∈ done.flatten := by
  obtain ⟨c, hc, huc⟩ := List.mem_flatten.1 hu
  obtain ⟨before, after, hsplit⟩ := List.append_of_mem hc
  rw [hsplit, List.flatten_append, List.flatten_cons, List.mem_append, List.mem_append]
  rcases h.backward before c after hsplit u huc v hedge with hv | hv
  · exact Or.inr (Or.inl hv)
  · exact Or.inl hv

theorem concat {c : List α} (hnodup : c.Nodup) (hnew : ∀ u ∈ c, u ∉ done.flatten) (hc : IsComponent E c)
    (hescape : ∀ u ∈ c, ∀ v, E u v → v ∈ c ∨ v ∈ done.flatten) : Components E (done ++ [c]) := by
  refine ⟨?_, fun d hd => ?_, fun before d after hsplit u hu v hedge => ?_⟩
  · rw [List.flatten_append, List.flatten_singleton, List.nodup_append]
    exact ⟨h.nodup, hnodup, fun a ha b hb hab => hnew b hb (hab ▸ ha)⟩
  · rcases List.mem_append.1 hd with hd | hd
    · exact h.component d hd
    · exact List.mem_singleton.1 hd ▸ hc
  · rcases concat_eq_middle hsplit with ⟨rfl, rfl⟩ | ⟨after', hold⟩
    · exact hescape u hu v hedge
    · exact h.backward before d after' hold u hu v hedge

end Components

end Egalito.Lib
