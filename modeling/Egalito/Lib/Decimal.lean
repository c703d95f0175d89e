import Mathlib.Tactic
/-!
# Decimal numbers in text

The text of a number ends where a character comes that is no digit, so a number
can be read off the beginning of a text.
-/

namespace Egalito.Lib

/-- As streams print it. -/
def decimal (z : Int) : List Char := if z < 0 then '-' :: Nat.toDigits 10 z.natAbs else Nat.toDigits 10 z.natAbs

variable {z z' : Int} {n n' : Nat} {rest rest' : List Char}

/-- The text does not go on with a digit. -/
def NoDigit (rest : List Char) : Prop := ∀ c ∈ rest.head?, c.isDigit = false

theorem takeWhile_toDigits (h : NoDigit rest) : (Nat.toDigits 10 n ++ rest).takeWhile Char.isDigit = Nat.toDigits 10 n := by
  have hdigits : ∀ c ∈ Nat.toDigits 10 n, c.isDigit = true := fun c => Nat.isDigit_of_mem_toDigits (by decide) (by decide)
  rw [List.takeWhile_append_of_pos hdigits]
  cases rest with
  | nil => simp
  | cons c rest => rw [List.takeWhile_cons_of_neg (by simp [h c rfl]), List.append_nil]

theorem toDigits_append_inj (h : NoDigit rest) (h' : NoDigit rest')
    (he : Nat.toDigits 10 n ++ rest = Nat.toDigits 10 n' ++ rest') : n = n' ∧ rest = rest' := by
  have hd : Nat.toDigits 10 n = Nat.toDigits 10 n' := by rw [← takeWhile_toDigits h, he, takeWhile_toDigits h']
  refine ⟨?_, ?_⟩
  · rw [← Nat.ofDigitChars_ten_toDigits (n := n), hd, Nat.ofDigitChars_ten_toDigits]
  · rw [hd] at he
    exact List.append_cancel_left he

theorem toDigits_ne_minus : Nat.toDigits 10 n ++ rest ≠ '-' :: rest' := by
  intro he
  cases hd : Nat.toDigits 10 n with
  | nil => exact Nat.toDigits_ne_nil hd
  | cons c l =>
    rw [hd] at he
    obtain rfl : c = '-' := (List.cons.inj he).1
    have hdigit : ('-' : Char).isDigit = true :=
      Nat.isDigit_of_mem_toDigits (b := 10) (n := n) (by decide) (by decide) (by rw [hd]; exact List.mem_cons_self)
    exact absurd hdigit (by decide)

theorem decimal_append_inj (h : NoDigit rest) (h' : NoDigit rest') (he : decimal z ++ rest = decimal z' ++ rest') :
    z = z' ∧ rest = rest' := by
  unfold decimal at he
  split_ifs at he with hz hz'
  · obtain ⟨habs, hrest⟩ := toDigits_append_inj h h' (List.cons.inj he).2
    exact ⟨by omega, hrest⟩
  · exact absurd he.symm toDigits_ne_minus
  · exact absurd he toDigits_ne_minus
  · obtain ⟨habs, hrest⟩ := toDigits_append_inj h h' he
    exact ⟨by omega, hrest⟩

/-! ## Optional fields -/

/-- A number behind a tag, or nothing. -/
def field (c : Char) (tag : List Char) (z : Option Int) : List Char := z.elim [] fun z => c :: tag ++ decimal z

/-- What begins a text, that the field's own tag does not begin. -/
theorem head?_field {c d : Char} {tag : List Char} {z : Option Int} (h : d ∈ (field c tag z ++ rest).head?) :
    d = c ∨ d ∈ rest.head? := by
  cases z with
  | none => exact .inr h
  | some z => exact .inl (by simpa [field, eq_comm] using h)

theorem field_append_inj {c : Char} {tag : List Char} {z z' : Option Int} (hdigit : NoDigit rest) (hdigit' : NoDigit rest')
    (hhead : c ∉ rest.head?) (hhead' : c ∉ rest'.head?) (he : field c tag z ++ rest = field c tag z' ++ rest') :
    z = z' ∧ rest = rest' := by
  cases z with
  | none =>
    cases z' with
    | none => exact ⟨rfl, he⟩
    | some z' =>
      change rest = c :: _ at he
      rw [he] at hhead
      exact absurd rfl hhead
  | some z =>
    cases z' with
    | none =>
      change c :: _ = rest' at he
      rw [← he] at hhead'
      exact absurd rfl hhead'
    | some z' =>
      simp only [field, Option.elim_some, List.cons_append, List.append_assoc, List.cons.injEq, true_and] at he
      obtain ⟨rfl, hrest⟩ := decimal_append_inj hdigit hdigit' (List.append_cancel_left he)
      exact ⟨rfl, hrest⟩

end Egalito.Lib
