import Mathlib.Data.List.Nodup
import Mathlib.Tactic
/-!
# Sibling pointers

Elements of a list that also know their neighbours through `prev` and `next`
pointers. `Chained` leaves the `next` pointer of the last element free, so that
it also describes a list whose end holds a stale pointer.
-/

namespace Egalito.Lib

variable {α : Type} {prev next prev' next' : α → Option α} {p : Option α} {a b l : List α} {x : α}

/-- The pointers link the elements of the list in order, with `p` before the first. -/
def Chained (prev next : α → Option α) (p : Option α) : List α → Prop
  | [] => True
  | x :: l => prev x = p ∧ (∀ y ∈ l.head?, next x = some y) ∧ Chained prev next (some x) l

theorem chained_append : Chained prev next p (a ++ b) ↔ Chained prev next p a ∧
    (∀ x ∈ a.getLast?, ∀ y ∈ b.head?, next x = some y) ∧ Chained prev next (a.getLast?.or p) b := by
  induction a generalizing p with
  | nil => simp [Chained]
  | cons x a ih =>
    rw [List.cons_append, Chained, Chained, ih]
    cases a with
    | nil => simp [Chained]
    | cons y a =>
      obtain ⟨z, hz⟩ : ∃ z, (y :: a).getLast? = some z := ⟨_, List.getLast?_eq_some_getLast (by simp)⟩
      simp [Chained, and_assoc, List.getLast?_cons_cons, hz]

theorem idxOf?_middle [DecidableEq α] (hx : x ∉ a) : (a ++ x :: b).idxOf? x = some a.length := by
  induction a with
  | nil => simp [List.idxOf?_cons]
  | cons y a ih =>
    rw [List.mem_cons, not_or] at hx
    rw [List.cons_append, List.idxOf?_cons, if_neg (by simpa using Ne.symm hx.1), ih hx.2]
    rfl

theorem insertIdx_middle : (a ++ b).insertIdx a.length x = a ++ x :: b := by
  induction a with
  | nil => simp
  | cons y a ih => simp [ih]

/-- Only the pointers of the elements matter, and of the last one only `prev`. -/
theorem Chained.congr (h : Chained prev next p l) (hprev : ∀ x ∈ l, prev' x = prev x)
    (hnext : ∀ x ∈ l.dropLast, next' x = next x) : Chained prev' next' p l := by
  induction l generalizing p with
  | nil => trivial
  | cons x l ih =>
    obtain ⟨hp, hn, hl⟩ := h
    cases l with
    | nil => exact ⟨(hprev x List.mem_cons_self).trans hp, by simp, trivial⟩
    | cons y l =>
      refine ⟨(hprev x List.mem_cons_self).trans hp, ?_, ih hl (fun z hz => hprev z (List.mem_cons_of_mem _ hz))
        (fun z hz => hnext z (List.mem_cons_of_mem _ hz))⟩
      intro z hz
      rw [hnext x List.mem_cons_self]
      exact hn z hz

theorem not_mem_getLast?_of_mem_dropLast (hnd : l.Nodup) (hx : x ∈ l.dropLast) : x ∉ l.getLast? := by
  intro hlast
  have hne : l ≠ [] := by rintro rfl; simp at hx
  rw [List.getLast?_eq_some_getLast hne, Option.mem_some_iff] at hlast
  rw [← List.dropLast_append_getLast hne, List.nodup_append] at hnd
  exact hnd.2.2 x hx _ (List.mem_singleton_self _) hlast.symm

theorem not_mem_head?_of_mem_tail (hnd : l.Nodup) (hx : x ∈ l.tail) : x ∉ l.head? := by
  cases l with
  | nil => simp
  | cons y l =>
    rw [List.head?_cons, Option.mem_some_iff]
    rintro rfl
    exact (List.nodup_cons.1 hnd).1 hx

/-- The part of a list behind its first element, when only the pointer to what is before it changes. -/
theorem Chained.rehead (h : Chained prev next p l) {q : Option α} (hhead : ∀ x ∈ l.head?, prev' x = q)
    (hprev : ∀ x ∈ l.tail, prev' x = prev x) (hnext : ∀ x ∈ l.dropLast, next' x = next x) :
    Chained prev' next' q l := by
  cases l with
  | nil => trivial
  | cons x l =>
    obtain ⟨hp, hn, hl⟩ := h
    refine ⟨hhead x rfl, ?_, hl.congr hprev fun z hz => hnext z ?_⟩
    · intro y hy
      cases l with
      | nil => simp at hy
      | cons z l => rw [hnext x List.mem_cons_self]; exact hn y hy
    · cases l with
      | nil => simp at hz
      | cons z l => exact List.mem_cons_of_mem _ hz

/-- A new element between two parts of a list, once its neighbours point to it. -/
theorem Chained.insert (h : Chained prev next p (a ++ b)) (hprevNew : prev' x = a.getLast?.or p)
    (hprevHead : ∀ y ∈ b.head?, prev' y = some x) (hprevLeft : ∀ y ∈ a, prev' y = prev y)
    (hprevRight : ∀ y ∈ b.tail, prev' y = prev y)
    (hnextNew : ∀ y ∈ b.head?, next' x = some y) (hnextLast : ∀ y ∈ a.getLast?, next' y = some x)
    (hnextLeft : ∀ y ∈ a.dropLast, next' y = next y) (hnextRight : ∀ y ∈ b.dropLast, next' y = next y) :
    Chained prev' next' p (a ++ x :: b) := by
  rw [chained_append] at h ⊢
  obtain ⟨ha, -, hb⟩ := h
  refine ⟨ha.congr hprevLeft hnextLeft, ?_, hprevNew, hnextNew, hb.rehead hprevHead hprevRight hnextRight⟩
  intro y hy z hz
  rw [List.head?_cons, Option.mem_some_iff] at hz
  rw [hnextLast y hy, hz]

/-- Without an element, once its neighbours point to each other. -/
theorem Chained.remove (h : Chained prev next p (a ++ x :: b))
    (hprevHead : ∀ y ∈ b.head?, prev' y = a.getLast?.or p) (hprevLeft : ∀ y ∈ a, prev' y = prev y)
    (hprevRight : ∀ y ∈ b.tail, prev' y = prev y)
    (hnextLast : ∀ y ∈ a.getLast?, ∀ z ∈ b.head?, next' y = some z)
    (hnextLeft : ∀ y ∈ a.dropLast, next' y = next y) (hnextRight : ∀ y ∈ b.dropLast, next' y = next y) :
    Chained prev' next' p (a ++ b) := by
  rw [chained_append] at h ⊢
  obtain ⟨ha, -, -, -, hb⟩ := h
  exact ⟨ha.congr hprevLeft hnextLeft, hnextLast, hb.rehead hprevHead hprevRight hnextRight⟩

/-- What the pointers of an element of the list say. -/
theorem Chained.prev_eq (h : Chained prev next p (a ++ x :: b)) : prev x = a.getLast?.or p :=
  (chained_append.1 h).2.2.1

theorem Chained.next_eq (h : Chained prev next p (a ++ x :: b)) (hb : b ≠ []) : next x = b.head? := by
  obtain ⟨y, b, rfl⟩ := List.exists_cons_of_ne_nil hb
  exact (chained_append.1 h).2.2.2.1 y rfl

/-- The pointers of every element are its neighbours. -/
theorem chained_of_neighbours (hprev : ∀ a x b, l = a ++ x :: b → prev x = a.getLast?.or p)
    (hnext : ∀ a x b, l = a ++ x :: b → next x = b.head?) : Chained prev next p l := by
  induction l generalizing p with
  | nil => trivial
  | cons x l ih =>
    refine ⟨by simpa using hprev [] x l rfl, ?_, ih ?_ ?_⟩
    · intro y hy
      rw [hnext [] x l rfl, hy]
    · rintro a y b rfl
      have := hprev (x :: a) y b rfl
      rw [this]
      cases a with
      | nil => rfl
      | cons z a =>
        obtain ⟨w, hw⟩ : ∃ w, (z :: a).getLast? = some w := ⟨_, List.getLast?_eq_some_getLast (by simp)⟩
        rw [List.getLast?_cons_cons, hw]
        rfl
    · rintro a y b rfl
      exact hnext (x :: a) y b rfl

end Egalito.Lib
