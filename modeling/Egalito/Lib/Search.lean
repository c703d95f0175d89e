import Mathlib.Tactic
/-!
# Depth-first search that carries a value

The search follows labelled edges and changes the value it carries by the label
of each edge. Nodes are marked by a key when they are entered, and a marked one
is not entered again. Carrying the labels themselves gives the path that is found.
-/

namespace Egalito.Lib

/-- The search goes wrong (`none`), or finds a value or not and has marked the keys. -/
abbrev Outcome (α κ : Type) := Option (Option α × List κ)

/-- One after the other, until one finds something. -/
def tryEach {α β κ : Type} (f : β → List κ → Outcome α κ) : List β → List κ → Outcome α κ
  | [], seen => some (none, seen)
  | b :: bs, seen =>
    match f b seen with
    | none => none
    | some (some a, seen) => some (some a, seen)
    | some (none, seen) => tryEach f bs seen

section

variable {ν κ L α : Type} [DecidableEq κ] (key : ν → κ) (edges : ν → List (L × ν)) (goal : ν → Bool)
  (move : α → L → Option α)

def search : Nat → ν → α → List κ → Outcome α κ
  | 0, _, _, _ => none
  | fuel + 1, n, a, seen =>
    if key n ∈ seen then some (none, seen)
    else if goal n then some (some a, key n :: seen)
    else
      tryEach (fun (edge : L × ν) seen =>
        match move a edge.1 with
        | none => none
        | some a => search fuel edge.2 a seen) (edges n) (key n :: seen)

/-- The search that carries the labels on its way. -/
def searchPath : Nat → ν → List L → List κ → Outcome (List L) κ :=
  search key edges goal fun path l => some (path ++ [l])

/-! ## The value found is the one carried along the path found -/

/-- The value found belongs to the path found. -/
def Carries (start : α) (value : Option α) (path : Option (List L)) : Prop :=
  match value, path with
  | some a, some path => path.foldlM move start = some a
  | none, none => True
  | _, _ => False

variable {key edges goal move}

theorem tryEach_carries {β : Type} {start : α} {f : β → List κ → Outcome α κ} {g : β → List κ → Outcome (List L) κ}
    (h : ∀ b seen r seen', f b seen = some (r, seen') → ∃ p, g b seen = some (p, seen') ∧ Carries move start r p)
    {bs : List β} {seen seen' : List κ} {r : Option α} (hf : tryEach f bs seen = some (r, seen')) :
    ∃ p, tryEach g bs seen = some (p, seen') ∧ Carries move start r p := by
  induction bs generalizing seen with
  | nil =>
    cases hf
    exact ⟨none, rfl, trivial⟩
  | cons b bs ih =>
    rw [tryEach] at hf
    rcases hb : f b seen with _ | ⟨_ | a, seen₁⟩
    · rw [hb] at hf
      cases hf
    · rw [hb] at hf
      obtain ⟨p, hp, hcarries⟩ := h b seen none seen₁ hb
      cases p with
      | some path => exact hcarries.elim
      | none =>
        rw [tryEach, hp]
        exact ih hf
    · rw [hb] at hf
      cases hf
      obtain ⟨p, hp, hcarries⟩ := h b seen (some a) seen' hb
      cases p with
      | none => exact hcarries.elim
      | some path => exact ⟨some path, by rw [tryEach, hp], hcarries⟩

/-- What a search finds, it has carried along the path that the search for the path finds. -/
theorem search_carries {start : α} (fuel : Nat) {n : ν} {a : α} {path : List L} {seen seen' : List κ} {r : Option α}
    (hpath : path.foldlM move start = some a) (h : search key edges goal move fuel n a seen = some (r, seen')) :
    ∃ p, searchPath key edges goal fuel n path seen = some (p, seen') ∧ Carries move start r p := by
  induction fuel generalizing n a path seen seen' r with
  | zero => cases h
  | succ fuel ih =>
    rw [search] at h
    rw [searchPath, search]
    split at h
    · rename_i hseen
      cases h
      exact ⟨none, if_pos hseen, trivial⟩
    · rename_i hseen
      rw [if_neg hseen]
      split at h
      · rename_i hgoal
        cases h
        exact ⟨some path, if_pos hgoal, hpath⟩
      · rename_i hgoal
        rw [if_neg hgoal]
        refine tryEach_carries (fun edge seen r seen' hedge => ?_) h
        cases hmove : move a edge.1 with
        | none =>
          rw [hmove] at hedge
          cases hedge
        | some a' =>
          rw [hmove] at hedge
          refine ih ?_ hedge
          rw [List.foldlM_append, hpath]
          simpa using hmove

end

end Egalito.Lib
