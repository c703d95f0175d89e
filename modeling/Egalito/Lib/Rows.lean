import Mathlib.Data.List.DropRight
import Mathlib.Tactic
/-!
# Longest rows in a list

The rows of neighbouring elements with a property that no neighbour has. A walk
through the list completes a row at the first element behind it; the row at the
end stays open.
-/

namespace Egalito.Lib

variable {α : Type} (P : α → Bool)

structure IsRow (l before row after : List α) : Prop where
  eq : l = before ++ row ++ after
  ne_nil : row ≠ []
  all : ∀ x ∈ row, P x = true
  left : ∀ x ∈ before.getLast?, P x = false
  right : ∀ x ∈ after.head?, P x = false

/-- A row with something behind it. -/
def ClosedRow (l before row : List α) : Prop := ∃ after, after ≠ [] ∧ IsRow P l before row after

variable {P} {l before row after : List α} {x : α}

/-- The open row. -/
theorem isRow_nil_iff : IsRow P l before row [] ↔ row ≠ [] ∧ before = l.rdropWhile P ∧ row = l.rtakeWhile P := by
  constructor
  · rintro ⟨heq, hne, hall, hleft, -⟩
    rw [List.append_nil] at heq
    have hbefore : l.rdropWhile P = before := by
      rw [heq, List.rdropWhile, List.reverse_append,
        List.dropWhile_append_of_pos fun x hx => hall x (List.mem_reverse.1 hx), ← List.rdropWhile,
        List.rdropWhile_eq_self_iff]
      exact fun hne => Bool.eq_false_iff.1 (hleft _ (List.getLast_mem_getLast? hne))
    refine ⟨hne, hbefore.symm, ?_⟩
    rw [← List.append_cancel_left_eq before, ← heq, ← hbefore, List.rdropWhile_append_rtakeWhile]
  · rintro ⟨hne, rfl, rfl⟩
    refine ⟨by rw [List.append_nil, List.rdropWhile_append_rtakeWhile], hne, ?_, ?_, by simp⟩
    · exact fun x hx => List.mem_rtakeWhile_imp hx
    · intro x hx
      obtain ⟨hne', rfl⟩ := List.mem_getLast?_eq_getLast hx
      exact Bool.eq_false_iff.2 (List.rdropWhile_last_not P l hne')

theorem isRow_concat : IsRow P (l ++ [x]) before row (after ++ [x]) ↔
    IsRow P l before row after ∧ (after = [] → P x = false) := by
  have heq : l ++ [x] = before ++ row ++ (after ++ [x]) ↔ l = before ++ row ++ after := by
    rw [← List.append_assoc, List.append_left_inj]
  cases after with
  | nil => exact ⟨fun h => ⟨⟨heq.1 h.eq, h.ne_nil, h.all, h.left, by simp⟩, fun _ => h.right x rfl⟩,
      fun ⟨h, hx⟩ => ⟨heq.2 h.eq, h.ne_nil, h.all, h.left, by simpa using hx⟩⟩
  | cons y after => exact ⟨fun h => ⟨⟨heq.1 h.eq, h.ne_nil, h.all, h.left, h.right⟩, nofun⟩,
      fun ⟨h, _⟩ => ⟨heq.2 h.eq, h.ne_nil, h.all, h.left, h.right⟩⟩

/-- One more element completes the open row, if it is not one of the row. -/
theorem closedRow_concat : ClosedRow P (l ++ [x]) before row ↔ ClosedRow P l before row ∨
    P x = false ∧ IsRow P l before row [] := by
  constructor
  · rintro ⟨after, hne, h⟩
    obtain ⟨after, y, rfl⟩ := (List.eq_nil_or_concat' after).resolve_left hne
    obtain rfl : x = y := by
      have hlast := congrArg List.getLast? h.eq
      rwa [← List.append_assoc, List.getLast?_concat, List.getLast?_concat, Option.some.injEq] at hlast
    obtain ⟨h, hx⟩ := isRow_concat.1 h
    by_cases hnil : after = []
    · exact .inr ⟨hx hnil, hnil ▸ h⟩
    · exact .inl ⟨after, hnil, h⟩
  · rintro (⟨after, hne, h⟩ | ⟨hx, h⟩)
    · exact ⟨after ++ [x], by simp, isRow_concat.2 ⟨h, fun hnil => absurd hnil hne⟩⟩
    · exact ⟨[] ++ [x], by simp, isRow_concat.2 ⟨h, fun _ => hx⟩⟩

end Egalito.Lib
