import Mathlib.Data.List.InsertIdx
import Mathlib.Tactic
/-!
# Indexes of a list

A map from keys to elements beside a list of them, kept up to date by separate
code. `Indexes` says that the map holds the list's elements and nothing else.
-/

namespace Egalito.Lib

variable {κ α : Type} (key : α → κ)

def Indexes (index : κ → Option α) (l : List α) : Prop := ∀ k x, index k = some x ↔ x ∈ l ∧ key x = k

variable {key} {index : κ → Option α} {l l' : List α} {x : α}

theorem Indexes.eq_none_iff (h : Indexes key index l) (k : κ) : index k = none ↔ ∀ x ∈ l, key x ≠ k := by
  rw [Option.eq_none_iff_forall_not_mem]
  constructor
  · intro hn x hx hk
    exact hn x ((h k x).2 ⟨hx, hk⟩)
  · intro hn x hx
    obtain ⟨hx, hk⟩ := (h k x).1 hx
    exact hn x hx hk

/-- Only what the list holds counts. -/
theorem Indexes.congr (h : Indexes key index l) (hl : ∀ x, x ∈ l ↔ x ∈ l') : Indexes key index l' := by
  intro k x
  rw [h k x, hl]

theorem indexes_nil : Indexes key (fun _ => none) ([] : List α) := by
  intro k x
  simp

/-- An index that has not seen an element does not find it. -/
theorem Indexes.not_of_mem (h : Indexes key index l) (hx : x ∉ l) (hx' : x ∈ l') : ¬ Indexes key index l' := by
  intro h'
  exact hx ((h (key x) x).1 ((h' (key x) x).2 ⟨hx', rfl⟩)).1

variable [DecidableEq κ]

theorem Indexes.add (h : Indexes key index l) (hkey : Function.Injective key) (hx : x ∉ l) :
    Indexes key (Function.update index (key x) (some x)) (l ++ [x]) := by
  intro k y
  rw [Function.update_apply, List.mem_append, List.mem_singleton]
  split
  · rename_i hk
    subst hk
    constructor
    · intro hy
      exact ⟨.inr (Option.some.inj hy).symm, congrArg key (Option.some.inj hy).symm⟩
    · rintro ⟨-, hy⟩
      rw [hkey hy]
  · rename_i hk
    rw [h k y]
    constructor
    · exact fun ⟨hy, hyk⟩ => ⟨.inl hy, hyk⟩
    · rintro ⟨hy | rfl, hyk⟩
      · exact ⟨hy, hyk⟩
      · exact absurd hyk.symm hk

/-- Erasing a key takes out the element that has it, if the list has one. -/
theorem Indexes.remove (h : Indexes key index l) (hkey : Function.Injective key)
    (hl : ∀ y, y ∈ l' ↔ y ∈ l ∧ y ≠ x) : Indexes key (Function.update index (key x) none) l' := by
  intro k y
  rw [Function.update_apply, hl]
  split
  · rename_i hk
    subst hk
    simp only [reduceCtorEq, false_iff]
    rintro ⟨⟨-, hy⟩, hyk⟩
    exact hy (hkey hyk)
  · rename_i hk
    rw [h k y]
    constructor
    · rintro ⟨hy, rfl⟩
      exact ⟨⟨hy, fun he => hk (he ▸ rfl)⟩, rfl⟩
    · exact fun ⟨⟨hy, _⟩, hyk⟩ => ⟨hy, hyk⟩

/-- An index made by adding the elements one after the other. -/
theorem indexes_foldl (hkey : Function.Injective key) (hl : l.Nodup) :
    Indexes key (l.foldl (fun index x => Function.update index (key x) (some x)) fun _ => none) l := by
  suffices ∀ (rest done : List α) index, Indexes key index done → (done ++ rest).Nodup →
      Indexes key (rest.foldl (fun index x => Function.update index (key x) (some x)) index) (done ++ rest) from
    this l [] _ indexes_nil hl
  intro rest
  induction rest with
  | nil =>
    intro done index h _
    rwa [List.append_nil]
  | cons x rest ih =>
    intro done index h hnd
    rw [List.append_cons] at hnd ⊢
    have hx : x ∉ done := by
      have hnd := (List.nodup_append.1 hnd).1
      exact fun hx => (List.nodup_append.1 hnd).2.2 x hx x (List.mem_singleton_self x) rfl
    exact ih (done ++ [x]) _ (h.add hkey hx) hnd

end Egalito.Lib
