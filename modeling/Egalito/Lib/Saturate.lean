import Mathlib.Tactic
/-!
# Saturation

A list that grows until it is closed: in a round each element that is there at
the beginning brings others, which are appended unless they are there, or fails.
Rounds end, and what is in the list then is what can be reached.
-/

open Relation

namespace Egalito.Lib

variable {α ε : Type}

/-! ## Appending what is new -/

section

variable [DecidableEq α]

def addNew (l : List α) (x : α) : List α := if x ∈ l then l else l ++ [x]

def addAll (l new : List α) : List α := new.foldl addNew l

theorem mem_addNew {l : List α} {x y : α} : y ∈ addNew l x ↔ y ∈ l ∨ y = x := by
  rw [addNew]
  split_ifs with h
  · constructor
    · exact Or.inl
    · rintro (hy | rfl)
      · exact hy
      · exact h
  · rw [List.mem_append, List.mem_singleton]

theorem mem_addAll {l new : List α} {y : α} : y ∈ addAll l new ↔ y ∈ l ∨ y ∈ new := by
  induction new generalizing l with
  | nil => simp [addAll]
  | cons x new ih =>
    rw [addAll, List.foldl_cons, ← addAll, ih, mem_addNew, List.mem_cons, or_assoc]

theorem prefix_addNew (l : List α) (x : α) : l <+: addNew l x := by
  rw [addNew]
  split_ifs
  · exact List.prefix_rfl
  · exact List.prefix_append l [x]

theorem prefix_addAll (l new : List α) : l <+: addAll l new := by
  induction new generalizing l with
  | nil => exact List.prefix_rfl
  | cons x new ih => exact (prefix_addNew l x).trans (ih (addNew l x))

theorem nodup_addNew {l : List α} (h : l.Nodup) (x : α) : (addNew l x).Nodup := by
  rw [addNew]
  split_ifs with hx
  · exact h
  · refine List.nodup_append.2 ⟨h, List.nodup_singleton x, fun y hy z hz => ?_⟩
    rintro rfl
    exact hx (List.mem_singleton.1 hz ▸ hy)

theorem nodup_addAll {l : List α} (h : l.Nodup) (new : List α) : (addAll l new).Nodup := by
  induction new generalizing l with
  | nil => exact h
  | cons x new ih => exact ih (nodup_addNew h x)

theorem addAll_append (l new more : List α) : addAll l (new ++ more) = addAll (addAll l new) more :=
  List.foldl_append

end

/-! ## Rounds -/

section

variable [DecidableEq α] (brings : α → Except ε (List α))

/-- The elements `xs` bring what they do to the list. -/
def bringAll (xs l : List α) : Except ε (List α) := xs.foldlM (fun l x => (brings x).map (addAll l)) l

/-- `none` is a loop of more rounds than the fuel. -/
def saturate : Nat → List α → Option (Except ε (List α))
  | 0, _ => none
  | fuel + 1, l =>
    match bringAll brings l l with
    | .error e => some (.error e)
    | .ok l' => if l'.length = l.length then some (.ok l') else saturate fuel l'

end

variable (brings : α → Except ε (List α))

def Brings (x y : α) : Prop := ∃ new, brings x = .ok new ∧ y ∈ new

def Brought (l : List α) (y : α) : Prop := ∃ x ∈ l, ReflTransGen (Brings brings) x y

variable {brings}

section

variable [DecidableEq α]

theorem bringAll_cons {x : α} {xs l : List α} : bringAll brings (x :: xs) l =
    match brings x with
    | .error e => .error e
    | .ok new => bringAll brings xs (addAll l new) := by
  rw [bringAll, List.foldlM_cons]
  cases brings x <;> rfl

/-- What a round does, when no element fails. -/
theorem of_bringAll_eq_ok {xs l l' : List α} (h : bringAll brings xs l = .ok l') :
    (∀ x ∈ xs, ∃ new, brings x = .ok new) ∧ (∀ y, y ∈ l' ↔ y ∈ l ∨ ∃ x ∈ xs, Brings brings x y) ∧ l <+: l' ∧
      (l.Nodup → l'.Nodup) := by
  induction xs generalizing l with
  | nil =>
    cases h
    exact ⟨by simp, by simp, List.prefix_rfl, id⟩
  | cons x xs ih =>
    rw [bringAll_cons] at h
    cases hx : brings x with
    | error e =>
      rw [hx] at h
      cases h
    | ok new =>
      rw [hx] at h
      obtain ⟨hok, hmem, hstarts, hnodup⟩ := ih h
      have hbrings : ∀ y, Brings brings x y ↔ y ∈ new := fun y =>
        ⟨fun ⟨new', hnew', hy⟩ => by cases hx.symm.trans hnew'; exact hy, fun hy => ⟨new, hx, hy⟩⟩
      refine ⟨List.forall_mem_cons.2 ⟨⟨new, hx⟩, hok⟩, fun y => ?_, (prefix_addAll l new).trans hstarts,
        fun hl => hnodup (nodup_addAll hl new)⟩
      rw [hmem, mem_addAll, List.exists_mem_cons_iff, hbrings, or_assoc]

theorem of_bringAll_eq_error {xs l : List α} {e : ε} (h : bringAll brings xs l = .error e) :
    ∃ x ∈ xs, brings x = .error e := by
  induction xs generalizing l with
  | nil => cases h
  | cons x xs ih =>
    rw [bringAll_cons] at h
    cases hx : brings x with
    | error e' =>
      rw [hx] at h
      cases h
      exact ⟨x, List.mem_cons_self, hx⟩
    | ok new =>
      rw [hx] at h
      obtain ⟨x', hx', he⟩ := ih h
      exact ⟨x', List.mem_cons_of_mem x hx', he⟩

end

/-! ## What is reached -/

theorem Brought.of_mem {l : List α} {x : α} (h : x ∈ l) : Brought brings l x := ⟨x, h, .refl⟩

theorem Brought.step {l : List α} {x y : α} (h : Brought brings l x) (hy : Brings brings x y) : Brought brings l y := by
  obtain ⟨x₀, hx₀, hreach⟩ := h
  exact ⟨x₀, hx₀, hreach.tail hy⟩

/-- What is reached from what is reached. -/
theorem Brought.mono {l l' : List α} (h : ∀ x ∈ l', Brought brings l x) {y : α} (hy : Brought brings l' y) :
    Brought brings l y := by
  obtain ⟨x, hx, hreach⟩ := hy
  obtain ⟨x₀, hx₀, hreach₀⟩ := h x hx
  exact ⟨x₀, hx₀, hreach₀.trans hreach⟩

/-- A closed list. -/
theorem Brought.mem {l : List α} (hclosed : ∀ x ∈ l, ∀ y, Brings brings x y → y ∈ l) {y : α} (h : Brought brings l y) : y ∈ l := by
  obtain ⟨x, hx, hreach⟩ := h
  induction hreach with
  | refl => exact hx
  | tail _ hy ih => exact hclosed _ ih _ hy

variable (brings) in
/-- Saturation ends. It gives what is reached, unless some of that fails. -/
theorem saturate_spec [DecidableEq α] [Fintype α] {fuel : Nat} {l : List α} (hnodup : l.Nodup)
    (hfuel : Fintype.card α - l.length < fuel) : ∃ outcome, saturate brings fuel l = some outcome ∧
      match outcome with
      | .ok l' => l'.Nodup ∧ (∀ y, y ∈ l' ↔ Brought brings l y) ∧ ∀ y ∈ l', ∃ new, brings y = .ok new
      | .error e => ∃ y, Brought brings l y ∧ brings y = .error e := by
  induction fuel generalizing l with
  | zero => omega
  | succ fuel ih =>
    rw [saturate]
    cases hround : bringAll brings l l with
    | error e =>
      obtain ⟨x, hx, he⟩ := of_bringAll_eq_error hround
      exact ⟨_, rfl, x, .of_mem hx, he⟩
    | ok l' =>
      obtain ⟨hok, hmem, hstarts, hnodup'⟩ := of_bringAll_eq_ok hround
      dsimp only
      split_ifs with hlength
      · have hsame : l = l' := hstarts.eq_of_length hlength.symm
        subst hsame
        refine ⟨_, rfl, hnodup, fun y => ⟨.of_mem, Brought.mem fun x hx y hy => (hmem y).2 (.inr ⟨x, hx, hy⟩)⟩, hok⟩
      · have hle := hstarts.length_le
        have hcard := (hnodup' hnodup).length_le_card
        obtain ⟨outcome, hsaturate, houtcome⟩ := ih (hnodup' hnodup) (by omega)
        have hreached : ∀ y, Brought brings l' y ↔ Brought brings l y := fun y => by
          refine ⟨.mono fun x hx => ?_, .mono fun x hx => .of_mem (hstarts.mem hx)⟩
          rcases (hmem x).1 hx with hx | ⟨x₀, hx₀, hx⟩
          · exact .of_mem hx
          · exact (Brought.of_mem hx₀).step hx
        refine ⟨outcome, hsaturate, ?_⟩
        cases outcome with
        | ok l'' => simpa only [hreached] using houtcome
        | error e => simpa only [hreached] using houtcome

/-! ## One after the other -/

section

variable {β : Type} {b : β → Except ε (List α)}

theorem mapM_cons_ok {x : β} {xs : List β} {news : List (List α)} : (x :: xs).mapM b = .ok news ↔
    ∃ new rest, b x = .ok new ∧ xs.mapM b = .ok rest ∧ news = new :: rest := by
  rw [List.mapM_cons]
  cases hx : b x with
  | error e => exact ⟨fun h => (nomatch h), fun ⟨_, _, h, _⟩ => nomatch h⟩
  | ok new =>
    cases hxs : xs.mapM b with
    | error e => exact ⟨fun h => (nomatch h), fun ⟨_, _, _, h, _⟩ => nomatch h⟩
    | ok rest =>
      constructor
      · intro h
        cases h
        exact ⟨new, rest, rfl, rfl, rfl⟩
      · rintro ⟨_, _, h, h', rfl⟩
        cases h
        cases h'
        rfl

/-- All of them succeed, and each brings its part. -/
theorem of_mapM_eq_ok {xs : List β} {news : List (List α)} (h : xs.mapM b = .ok news) :
    (∀ x ∈ xs, ∃ new, b x = .ok new) ∧ ∀ y, y ∈ news.flatten ↔ ∃ x ∈ xs, ∃ new, b x = .ok new ∧ y ∈ new := by
  induction xs generalizing news with
  | nil =>
    cases h
    simp
  | cons x xs ih =>
    obtain ⟨new, rest, hx, hxs, rfl⟩ := mapM_cons_ok.1 h
    obtain ⟨hok, hmem⟩ := ih hxs
    refine ⟨List.forall_mem_cons.2 ⟨⟨new, hx⟩, hok⟩, fun y => ?_⟩
    rw [List.flatten_cons, List.mem_append, hmem, List.exists_mem_cons_iff]
    refine or_congr_left ⟨fun hy => ⟨new, hx, hy⟩, ?_⟩
    rintro ⟨new', hnew', hy⟩
    cases hx.symm.trans hnew'
    exact hy

theorem exists_mapM {xs : List β} (h : ∀ x ∈ xs, ∃ new, b x = .ok new) : ∃ news, xs.mapM b = .ok news := by
  induction xs with
  | nil => exact ⟨[], rfl⟩
  | cons x xs ih =>
    rw [List.forall_mem_cons] at h
    obtain ⟨new, hx⟩ := h.1
    obtain ⟨rest, hxs⟩ := ih h.2
    exact ⟨new :: rest, mapM_cons_ok.2 ⟨new, rest, hx, hxs, rfl⟩⟩

end

end Egalito.Lib
