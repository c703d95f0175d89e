import Mathlib.Data.List.Sort
import Mathlib.Tactic
/-!
# Scans that stop early

A loop over a sorted vector that collects the matching elements and breaks at
the first element that rules out all later ones. `scanUntil_eq_filter` says
when the break loses nothing.
-/

namespace Egalito.Lib

variable {α : Type}

/-- Collect the elements with `p`; leave the loop after an element with `stop`. -/
def scanUntil (p stop : α → Bool) : List α → List α
  | [] => []
  | x :: xs =>
    let rest := if stop x then [] else scanUntil p stop xs
    if p x then x :: rest else rest

/-- On a list sorted by `R`, breaking at `stop` collects every match if no
element after a `stop` one can match. -/
theorem scanUntil_eq_filter {R : α → α → Prop} {p stop : α → Bool} {l : List α} (hl : l.Pairwise R)
    (hs : ∀ x y, R x y → stop x = true → p y = false) : scanUntil p stop l = l.filter p := by
  induction l with
  | nil => rfl
  | cons x xs ih =>
    obtain ⟨hx, hxs⟩ := List.pairwise_cons.1 hl
    have hrest : (if stop x then [] else scanUntil p stop xs) = xs.filter p := by
      cases hst : stop x with
      | false => simpa using ih hxs
      | true =>
        have : xs.filter p = [] := by
          rw [List.filter_eq_nil_iff]
          intro y hy
          simp [hs x y (hx y hy) hst]
        simp [this]
    simp only [scanUntil, hrest, List.filter_cons]

/-- Sorting a list sorts it, for an order given as a strict comparison. -/
theorem pairwise_sort {lt : α → α → Bool} (htr : ∀ a b c, lt b a = false → lt c b = false → lt c a = false)
    (htot : ∀ a b, lt a b = false ∨ lt b a = false) (l : List α) :
    (l.insertionSort (fun a b => lt b a = false)).Pairwise (fun a b => lt b a = false) := by
  have : Std.Total (fun a b => lt b a = false) := ⟨fun a b => (htot b a)⟩
  have : IsTrans α (fun a b => lt b a = false) := ⟨htr⟩
  exact List.pairwise_insertionSort _ l

end Egalito.Lib
