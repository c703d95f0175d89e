import Mathlib.Tactic
import Mathlib.Data.BitVec
/-!
# Bit fields

Fields of neighbouring bits in a word: a field is set without the other bits,
and a word is determined by the field and what is outside of it.
-/

namespace Egalito.Lib

variable {w p n k i : Nat} {x y v : BitVec w}

/-- The `n` bits from bit `p` on. -/
def fieldMask (w p n : Nat) : BitVec w := (BitVec.allOnes n).setWidth w <<< p

theorem getLsbD_fieldMask (hi : i < w) : (fieldMask w p n).getLsbD i = (decide (p ≤ i) && decide (i < p + n)) := by
  rw [fieldMask, BitVec.getLsbD_shiftLeft, BitVec.getLsbD_setWidth, BitVec.getLsbD_allOnes]
  by_cases hp : p ≤ i
  · have hnot : ¬ i < p := Nat.not_lt.2 hp
    have hlt : i - p < w := by omega
    have hiff : i - p < n ↔ i < p + n := by omega
    simp only [hi, hnot, hlt, hp, hiff, decide_true, decide_false, Bool.not_false, Bool.true_and]
  · have hlt : i < p := Nat.lt_of_not_le hp
    simp only [hi, hlt, hp, decide_true, decide_false, Bool.not_true, Bool.and_false, Bool.false_and]

/-- The field replaced by the low bits of `v`. -/
def setField (x : BitVec w) (p n : Nat) (v : BitVec w) : BitVec w := (x &&& ~~~fieldMask w p n) ||| (v <<< p &&& fieldMask w p n)

theorem getLsbD_setField (hi : i < w) : (setField x p n v).getLsbD i =
    if p ≤ i ∧ i < p + n then v.getLsbD (i - p) else x.getLsbD i := by
  rw [setField, BitVec.getLsbD_or, BitVec.getLsbD_and, BitVec.getLsbD_and, BitVec.getLsbD_not, getLsbD_fieldMask hi,
    BitVec.getLsbD_shiftLeft]
  by_cases hp : p ≤ i
  · have hnot : ¬ i < p := Nat.not_lt.2 hp
    by_cases hn : i < p + n
    · simp [hi, hp, hn, hnot]
    · simp [hi, hp, hn]
  · simp [hi, hp]

theorem extractLsb'_setField (h : p + n ≤ w) : (setField x p n v).extractLsb' p n = v.setWidth n := by
  refine BitVec.eq_of_getLsbD_eq fun i hi => ?_
  rw [BitVec.getLsbD_extractLsb', getLsbD_setField (by omega), if_pos (by omega), BitVec.getLsbD_setWidth,
    Nat.add_sub_cancel_left]

theorem setField_outside : setField x p n v &&& ~~~fieldMask w p n = x &&& ~~~fieldMask w p n := by
  refine BitVec.eq_of_getLsbD_eq fun i hi => ?_
  rw [BitVec.getLsbD_and, BitVec.getLsbD_and, getLsbD_setField hi, BitVec.getLsbD_not, getLsbD_fieldMask hi]
  split_ifs with h
  · simp [h.1, h.2]
  · rfl

/-- Bits outside of a field agree in words that differ in the field only. -/
theorem getLsbD_of_outside {m : BitVec w} (h : x &&& ~~~m = y &&& ~~~m) (hm : m.getLsbD i = false) :
    x.getLsbD i = y.getLsbD i := by
  rcases Nat.lt_or_ge i w with hi | hi
  · have hbit := congrArg (fun z => z.getLsbD i) h
    simpa only [BitVec.getLsbD_and, BitVec.getLsbD_not, hm, hi, decide_true, Bool.not_false, Bool.and_true] using hbit
  · rw [BitVec.getLsbD_of_ge x i hi, BitVec.getLsbD_of_ge y i hi]

/-- A word is its field and the bits outside. -/
theorem eq_of_field (hout : x &&& ~~~fieldMask w p n = y &&& ~~~fieldMask w p n)
    (hin : x.extractLsb' p n = y.extractLsb' p n) : x = y := by
  refine BitVec.eq_of_getLsbD_eq fun i hi => ?_
  by_cases h : p ≤ i ∧ i < p + n
  · have hbit := congrArg (fun z => z.getLsbD (i - p)) hin
    simpa only [BitVec.getLsbD_extractLsb', show i - p < n by omega, show p + (i - p) = i by omega, decide_true,
      Bool.true_and] using hbit
  · refine getLsbD_of_outside hout ?_
    rw [getLsbD_fieldMask hi]
    simpa using h

/-! ## Numbers with a sign -/

/-- The low bits of an extended number are the number. -/
theorem setWidth_ofInt_toInt {z : BitVec n} (h : n ≤ w) : (BitVec.ofInt w z.toInt).setWidth n = z := by
  change (z.signExtend w).setWidth n = z
  refine BitVec.eq_of_getLsbD_eq fun i hi => ?_
  rw [BitVec.getLsbD_setWidth, BitVec.getLsbD_signExtend]
  simp only [hi, show i < w by omega, decide_true, Bool.true_and, if_true]

theorem sshiftRight_ofInt {z : Int} (hw : 0 < w) (h : -2 ^ (w - 1) ≤ 2 ^ k * z ∧ 2 ^ k * z < 2 ^ (w - 1)) :
    (BitVec.ofInt w (2 ^ k * z)).sshiftRight k = BitVec.ofInt w z := by
  rw [BitVec.sshiftRight_eq, BitVec.toInt_ofInt_eq_self hw h.1 h.2, Int.shiftRight_eq_div_pow]
  congr 1
  exact Int.mul_ediv_cancel_left z (by positivity)

end Egalito.Lib
