import Mathlib.Data.Set.Insert
import Mathlib.Tactic
/-!
# Ways out of a graph, and sets grown by a rule

A walk goes on from every node that does not stop it, and escapes at one that it
can leave from. The second part is about a set that grows by a monotone rule: it
is least, whatever the order in which its elements came.
-/

namespace Egalito.Lib

/-! ## Escapes -/

section Escape

variable {α : Type} (stop leave : α → Prop) (succ : α → α → Prop)

/-- The nodes that a walk from the start gets to. -/
inductive Passes (start : α) : α → Prop
  | start : Passes start start
  | step {n m : α} : Passes start n → ¬ stop n → succ n m → Passes start m

def Escapes (start : α) : Prop := ∃ n, Passes stop succ start n ∧ ¬ stop n ∧ leave n

variable {stop leave succ} {stop' leave' : α → Prop} {succ' : α → α → Prop} {start : α}

theorem Passes.cons {n m k : α} (hn : ¬ stop n) (hs : succ n m) (h : Passes stop succ m k) :
    Passes stop succ n k := by
  induction h with
  | start => exact .step .start hn hs
  | step _ hk hs' ih => exact ih.step hk hs'

theorem Escapes.cons {n m : α} (hn : ¬ stop n) (hs : succ n m) (h : Escapes stop leave succ m) :
    Escapes stop leave succ n :=
  let ⟨k, hk, hks, hl⟩ := h
  ⟨k, hk.cons hn hs, hks, hl⟩

/-- A walk keeps to a region that no link leaves. -/
theorem Passes.within {W : α → Prop} (hstart : W start) (hsucc : ∀ n m, W n → succ n m → W m) {n : α}
    (h : Passes stop succ start n) : W n := by
  induction h with
  | start => exact hstart
  | step _ _ hs ih => exact hsucc _ _ ih hs

/-- A way out is one of another graph too, if that graph has no more stops, and no less
links and exits where the walk can be. -/
theorem Escapes.imp {W : α → Prop} (hstart : W start) (hsucc : ∀ n m, W n → succ' n m → W m)
    (hstop : ∀ n, W n → stop n → stop' n) (hlink : ∀ n m, W n → ¬ stop' n → succ' n m → succ n m)
    (hleave : ∀ n, W n → ¬ stop' n → leave' n → leave n) (h : Escapes stop' leave' succ' start) :
    Escapes stop leave succ start := by
  have hpass : ∀ n, Passes stop' succ' start n → Passes stop succ start n := by
    intro n hn
    induction hn with
    | start => exact .start
    | step hp hns hs ih =>
      have hW := hp.within hstart hsucc
      exact ih.step (fun hc => hns (hstop _ hW hc)) (hlink _ _ hW hns hs)
  obtain ⟨n, hn, hns, hl⟩ := h
  have hW := hn.within hstart hsucc
  exact ⟨n, hpass n hn, fun hc => hns (hstop n hW hc), hleave n hW hns hl⟩

end Escape

/-! ## Growing a set -/

section Grow

variable {α : Type} (rule : α → Set α → Prop) (candidates : Set α)

/-- The sets that insertions of candidates under the rule lead to. -/
inductive Grown (s : Set α) : Set α → Prop
  | base : Grown s s
  | insert {t : Set α} {x : α} : Grown s t → x ∈ candidates → rule x t → Grown s (insert x t)

def Closed (t : Set α) : Prop := ∀ x ∈ candidates, rule x t → x ∈ t

variable {rule candidates} {s t u : Set α}

theorem Grown.base_subset (h : Grown rule candidates s t) : s ⊆ t := by
  induction h with
  | base => exact subset_rfl
  | insert _ _ _ ih => exact ih.trans (Set.subset_insert _ _)

theorem Grown.trans (h : Grown rule candidates s t) (h' : Grown rule candidates t u) : Grown rule candidates s u := by
  induction h' with
  | base => exact h
  | insert _ hx hr ih => exact ih.insert hx hr

/-- What grows from below a closed set stays below it. -/
theorem Grown.subset_of_closed (hmono : ∀ x t u, t ⊆ u → rule x t → rule x u)
    (h : Grown rule candidates s t) (hsu : s ⊆ u) (hu : Closed rule candidates u) : t ⊆ u := by
  induction h with
  | base => exact hsu
  | insert _ hx hr ih => exact Set.insert_subset (hu _ hx (hmono _ _ _ ih hr)) ih

/-- A closed set that grew from the base is the only one. -/
theorem Grown.unique (hmono : ∀ x t u, t ⊆ u → rule x t → rule x u)
    (ht : Grown rule candidates s t) (hu : Grown rule candidates s u)
    (hct : Closed rule candidates t) (hcu : Closed rule candidates u) : t = u :=
  (ht.subset_of_closed hmono hu.base_subset hcu).antisymm (hu.subset_of_closed hmono ht.base_subset hct)

end Grow

end Egalito.Lib
