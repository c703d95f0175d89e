import Mathlib.Tactic
/-!
# Alternatives on one capture list

A matcher that tries alternatives one after the other on the same list of
captures keeps what a failed one has added. An `Attempt` is the order of such a
match; it can be run on a list, or asked for the captures of its first success.
-/

namespace Egalito.Lib

/-- What is tried, in order. A capture keeps a list of its own, which counts only when it succeeds. -/
inductive Attempt (α : Type) where
  | ends (result : Bool)
  | both (first second : Attempt α)
  | either (first second : Attempt α)
  | capture (x : α) (inner : Attempt α)

namespace Attempt

variable {α : Type}

/-- Run on the captures so far. -/
@[simp]
def run : Attempt α → List α → Bool × List α
  | ends result, captures => (result, captures)
  | both first second, captures =>
    match first.run captures with
    | (true, captures) => second.run captures
    | (false, captures) => (false, captures)
  | either first second, captures =>
    match first.run captures with
    | (true, captures) => (true, captures)
    | (false, captures) => second.run captures
  | capture x inner, captures =>
    match inner.run [] with
    | (true, captures') => (true, captures ++ x :: captures')
    | (false, _) => (false, captures)

/-- The captures of the first success alone. -/
@[simp]
def first : Attempt α → Option (List α)
  | ends result => if result then some [] else none
  | both a b => a.first.bind fun l => b.first.map (l ++ ·)
  | either a b => a.first.or b.first
  | capture x inner => inner.first.map (x :: ·)

/-- A run succeeds when some alternative does, and only adds to the captures. -/
theorem run_appends (a : Attempt α) : ∃ l, ∀ captures, a.run captures = (a.first.isSome, captures ++ l) := by
  induction a with
  | ends result => exact ⟨[], fun captures => by cases result <;> simp [run, first]⟩
  | both a b iha ihb =>
    obtain ⟨la, ha⟩ := iha
    obtain ⟨lb, hb⟩ := ihb
    cases hfirst : a.first with
    | none => exact ⟨la, fun captures => by simp [run, first, ha, hfirst]⟩
    | some l => exact ⟨la ++ lb, fun captures => by simp [run, first, ha, hb, hfirst]⟩
  | either a b iha ihb =>
    obtain ⟨la, ha⟩ := iha
    obtain ⟨lb, hb⟩ := ihb
    cases hfirst : a.first with
    | none => exact ⟨la ++ lb, fun captures => by simp [run, first, ha, hb, hfirst]⟩
    | some l => exact ⟨la, fun captures => by simp [run, first, ha, hfirst]⟩
  | capture x inner ih =>
    obtain ⟨l, h⟩ := ih
    cases hfirst : inner.first with
    | none => exact ⟨[], fun captures => by simp [run, first, h, hfirst]⟩
    | some _ => exact ⟨x :: l, fun captures => by simp [run, first, h, hfirst]⟩

/-- What a run adds. -/
def added (a : Attempt α) : List α := (a.run []).2

theorem run_eq (a : Attempt α) (captures : List α) : a.run captures = (a.first.isSome, captures ++ a.added) := by
  obtain ⟨l, h⟩ := a.run_appends
  simp [added, h]

/-! ## What is left behind -/

@[simp] theorem added_ends (result : Bool) : (ends result : Attempt α).added = [] := rfl

theorem added_both (a b : Attempt α) : (both a b).added = if a.first.isSome then a.added ++ b.added else a.added := by
  obtain ⟨la, ha⟩ := a.run_appends
  obtain ⟨lb, hb⟩ := b.run_appends
  cases hfirst : a.first <;> simp [added, run, ha, hb, hfirst]

theorem added_either (a b : Attempt α) :
    (either a b).added = if a.first.isSome then a.added else a.added ++ b.added := by
  obtain ⟨la, ha⟩ := a.run_appends
  obtain ⟨lb, hb⟩ := b.run_appends
  cases hfirst : a.first <;> simp [added, run, ha, hb, hfirst]

theorem added_capture (x : α) (inner : Attempt α) :
    (capture x inner).added = if inner.first.isSome then x :: inner.added else [] := by
  obtain ⟨l, h⟩ := inner.run_appends
  cases hfirst : inner.first <;> simp [added, run, h, hfirst]

/-- Nothing has been captured where the second part of a whole fails. -/
def Clean : Attempt α → Prop
  | ends _ => True
  | both a b => a.Clean ∧ ∀ l, a.first = some l → b.Clean ∧ (b.first = none → l = [])
  | either a b => a.Clean ∧ (a.first = none → b.Clean)
  | capture _ inner => inner.first ≠ none → inner.Clean

/-- A run adds at least the captures of the first success. -/
theorem length_first_le (a : Attempt α) : (a.first.getD []).length ≤ a.added.length := by
  induction a with
  | ends result => cases result <;> simp [first]
  | both a b iha ihb =>
    cases ha : a.first <;> cases hb : b.first <;> simp_all [first, added_both]
    omega
  | either a b iha ihb => cases ha : a.first <;> cases hb : b.first <;> simp_all [first, added_either]; omega
  | capture x inner ih => cases h : inner.first <;> simp_all [first, added_capture]

/-- What two runs add in a row, against the captures of two successes. -/
theorem added_append_eq_iff (a b : Attempt α) :
    a.added ++ b.added = a.first.getD [] ++ b.first.getD [] ↔
      a.added = a.first.getD [] ∧ b.added = b.first.getD [] := by
  refine ⟨fun h => ?_, fun ⟨ha, hb⟩ => by rw [ha, hb]⟩
  have hlength := congrArg List.length h
  have hla := a.length_first_le
  have hlb := b.length_first_le
  rw [List.length_append, List.length_append] at hlength
  exact List.append_inj h (by omega)

/-- A run adds the captures of the first success alone exactly when it is clean. -/
theorem added_eq_iff (a : Attempt α) : a.added = a.first.getD [] ↔ a.Clean := by
  induction a with
  | ends result => cases result <;> simp [first, Clean]
  | both a b iha ihb =>
    have happend := added_append_eq_iff a b
    rw [iha, ihb] at happend
    rw [added_both, Clean, first]
    cases ha : a.first with
    | none => rw [← iha]; simp [ha]
    | some l =>
      cases hb : b.first with
      | some l' => simpa [ha, hb] using happend
      | none =>
        -- the second part fails: what the first one has captured must be empty
        have hsplit : a.added ++ b.added = [] ↔ (a.added = l ∧ b.added = []) ∧ l = [] := by
          constructor
          · intro h
            obtain ⟨hea, heb⟩ := List.append_eq_nil_iff.1 h
            have hle := a.length_first_le
            simp only [ha, hea, Option.getD_some, List.length_nil] at hle
            have hl : l = [] := List.length_eq_zero_iff.1 (by omega)
            exact ⟨⟨by rw [hea, hl], heb⟩, hl⟩
          · rintro ⟨⟨hea, heb⟩, hl⟩
            rw [hea, heb, hl, List.append_nil]
        simp only [ha, hb, Option.getD_some, Option.getD_none] at iha ihb
        simpa [← iha, ← ihb, and_assoc] using hsplit
  | either a b iha ihb =>
    have happend := added_append_eq_iff a b
    rw [iha, ihb] at happend
    rw [added_either, Clean, first]
    cases ha : a.first with
    | none => simpa [ha] using happend
    | some l => rw [← iha]; simp [ha]
  | capture x inner ih =>
    rw [added_capture, Clean, first, ← ih]
    cases h : inner.first <;> simp

end Attempt

end Egalito.Lib
