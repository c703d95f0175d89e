import Mathlib.Data.Nat.Factorization.Basic
import Mathlib.Tactic
/-!
# Rounding to an alignment

`roundDown` and `roundUp` on the numbers, and what the masks that compute them
with powers of two give on 64-bit words.
-/

namespace Egalito.Lib

def roundDown (a n : Nat) : Nat := n / a * a

def roundUp (a n : Nat) : Nat := roundDown a (n + (a - 1))

variable {a n : Nat}

theorem dvd_roundDown : a ∣ roundDown a n := Nat.dvd_mul_left a _

theorem dvd_roundUp : a ∣ roundUp a n := dvd_roundDown

theorem roundDown_le : roundDown a n ≤ n := Nat.div_mul_le_self n a

theorem lt_roundDown_add (ha : 0 < a) : n < roundDown a n + a := by
  unfold roundDown
  have hsplit := Nat.div_add_mod n a
  have hmod := Nat.mod_lt n ha
  rw [Nat.mul_comm] at hsplit
  omega

theorem le_roundUp (ha : 0 < a) : n ≤ roundUp a n := by
  have h : n + (a - 1) < roundUp a n + a := lt_roundDown_add ha
  omega

theorem roundUp_lt_add (ha : 0 < a) : roundUp a n < n + a := by
  have h : roundUp a n ≤ n + (a - 1) := roundDown_le
  omega

@[simp] theorem roundUp_one : roundUp 1 n = n := by simp [roundUp, roundDown]

/-- Multiples of the alignment between which nothing fits. -/
theorem roundUp_le_iff {m : Nat} (ha : 0 < a) (hm : a ∣ m) : roundUp a n ≤ m ↔ n ≤ m := by
  refine ⟨(le_roundUp ha).trans, fun h => ?_⟩
  obtain ⟨c, rfl⟩ := hm
  have hlt : (n + (a - 1)) / a < c + 1 := by
    rw [Nat.div_lt_iff_lt_mul ha, Nat.mul_comm, Nat.mul_add]
    omega
  rw [Nat.mul_comm a c]
  exact Nat.mul_le_mul_right a (by omega)

theorem roundDown_mod {w : Nat} (h : a ∣ w) : roundDown a (n % w) = roundDown a n % w := by
  obtain ⟨c, rfl⟩ := h
  unfold roundDown
  rw [Nat.mod_mul_right_div_self, Nat.mul_comm a c, Nat.mul_mod_mul_right]

/-! ## Words -/

variable {word : UInt64} {k : Nat}

theorem toNat_sub_one (h : word.toNat = 2 ^ k) : (word - 1).toNat = 2 ^ k - 1 := by
  have hone : (1 : UInt64) ≤ word := by
    rw [UInt64.le_iff_toNat_le, h]
    exact Nat.one_le_two_pow
  rw [UInt64.toNat_sub_of_le _ _ hone, h]
  rfl

theorem lt_of_toNat_eq_two_pow (h : word.toNat = 2 ^ k) : k < 64 := by
  have hlt := word.toNat_lt
  rw [h] at hlt
  exact (Nat.pow_lt_pow_iff_right (by decide)).1 hlt

/-- The mask `~(2^k - 1)` rounds down. -/
theorem toNat_and_not (h : word.toNat = 2 ^ k) (x : UInt64) :
    (x &&& ~~~(word - 1)).toNat = roundDown word.toNat x.toNat := by
  have hk := lt_of_toNat_eq_two_pow h
  have hmask : (2 ^ k - 1 : Nat) < 2 ^ 64 := (Nat.sub_lt (Nat.two_pow_pos k) Nat.one_pos).trans
    (Nat.pow_lt_pow_right (by decide) hk)
  unfold roundDown
  rw [h]
  apply Nat.eq_of_testBit_eq
  intro i
  rw [UInt64.toNat_and, UInt64.toNat_not, toNat_sub_one h, Nat.sub_sub, Nat.add_comm 1, Nat.testBit_and,
    show UInt64.size = 2 ^ 64 from rfl, Nat.testBit_two_pow_sub_succ hmask, Nat.testBit_two_pow_sub_one,
    Nat.testBit_mul_two_pow, Nat.testBit_div_two_pow]
  by_cases hik : i < k
  · simp [hik]
  · -- the bits above the alignment stay, and a word has none from bit 64 on
    have hsub : i - k + k = i := by omega
    rw [hsub]
    by_cases hi : i < 64
    · simp [hik, hi, Nat.le_of_not_lt hik]
    · have hzero : x.toNat.testBit i = false :=
        Nat.testBit_lt_two_pow (x.toNat_lt.trans_le (Nat.pow_le_pow_right (by decide) (Nat.le_of_not_lt hi)))
      simp [hzero]

theorem toNat_add_sub_one (h : word.toNat = 2 ^ k) (x : UInt64) :
    (x + word - 1).toNat = (x.toNat + (word.toNat - 1)) % 2 ^ 64 := by
  rw [UInt64.sub_eq_add_neg, UInt64.add_assoc, ← UInt64.sub_eq_add_neg, UInt64.toNat_add, toNat_sub_one h, h]

/-- `(x + a - 1) & ~(a - 1)`. -/
theorem toNat_align (h : word.toNat = 2 ^ k) (x : UInt64) :
    (x + word - 1 &&& ~~~(word - 1)).toNat = roundUp word.toNat x.toNat % 2 ^ 64 := by
  have hdvd : word.toNat ∣ 2 ^ 64 := h ▸ pow_dvd_pow 2 (lt_of_toNat_eq_two_pow h).le
  rw [toNat_and_not h, toNat_add_sub_one h, roundDown_mod hdvd, roundUp]

/-- An odd number and its complement share the lowest bit only. -/
theorem and_two_pow_sub {j m : Nat} (hodd : m % 2 = 1) (hm : m < 2 ^ j) : m &&& (2 ^ j - m) = 1 := by
  obtain ⟨q, rfl⟩ : ∃ q, m = 2 * q + 1 := ⟨m / 2, by omega⟩
  have hj : 0 < j := by
    rcases Nat.eq_zero_or_pos j with rfl | hj
    · simp at hm
    · exact hj
  apply Nat.eq_of_testBit_eq
  intro i
  rw [Nat.testBit_and, Nat.testBit_two_pow_sub_succ (by omega : 2 * q < 2 ^ j)]
  cases i with
  | zero => simp [hj]
  | succ i =>
    have hhalf : (2 * q + 1) / 2 = q := by omega
    have hhalf' : 2 * q / 2 = q := by omega
    rw [Nat.testBit_succ, Nat.testBit_succ, Nat.testBit_succ, hhalf, hhalf']
    simp +contextual

/-- `x & -x` is the largest power of two that divides `x`. -/
theorem toNat_and_neg {x : UInt64} (h : x ≠ 0) : ∃ k, (x &&& -x).toNat = 2 ^ k ∧ 2 ^ k ∣ x.toNat := by
  have hpos : x.toNat ≠ 0 := fun hzero => h (UInt64.toNat.inj hzero)
  obtain ⟨k, m, hodd, hx⟩ := Nat.exists_eq_two_pow_mul_odd hpos
  have hlt := x.toNat_lt
  have hmpos : 0 < m := hodd.pos
  have hk : k < 64 := by
    by_contra hk
    have hle : 2 ^ 64 ≤ 2 ^ k := Nat.pow_le_pow_right (by decide) (by omega)
    have := Nat.le_mul_of_pos_right (2 ^ k) hmpos
    omega
  have hsplit : 2 ^ 64 = 2 ^ k * 2 ^ (64 - k) := by
    rw [← pow_add]
    congr 1
    omega
  have hm : m < 2 ^ (64 - k) := by
    rw [hx, hsplit] at hlt
    exact Nat.lt_of_mul_lt_mul_left hlt
  have hneg : (-x).toNat = 2 ^ k * (2 ^ (64 - k) - m) := by
    rw [UInt64.toNat_neg, show UInt64.size = 2 ^ 64 from rfl, Nat.mod_eq_of_lt (by omega), hx, hsplit, Nat.mul_sub]
  refine ⟨k, ?_, hx ▸ Nat.dvd_mul_right _ _⟩
  rw [UInt64.toNat_and, hneg, hx, Nat.mul_comm _ m, Nat.mul_comm _ (_ - m), ← Nat.shiftLeft_eq, ← Nat.shiftLeft_eq,
    ← Nat.shiftLeft_and_distrib, and_two_pow_sub (Nat.odd_iff.1 hodd) hm, Nat.shiftLeft_eq, Nat.one_mul]

end Egalito.Lib
