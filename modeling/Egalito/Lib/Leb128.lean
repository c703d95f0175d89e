import Mathlib.Tactic
/-!
# LEB128

A number in groups of seven bits, the lowest first, one group in a byte; every
byte but the last has its high bit set. A signed number ends with the group
that holds its sign in bit six.
-/

namespace Egalito.Lib

/-- The groups of an unsigned number. -/
def sevens (n : Nat) : List Nat := if n < 128 then [n] else n % 128 :: sevens (n / 128)
termination_by n
decreasing_by omega

/-- The groups of a signed number. -/
def signedSevens (v : Int) : List Nat :=
  if -64 ≤ v ∧ v < 64 then [(v % 128).toNat] else (v % 128).toNat :: signedSevens (v / 128)
termination_by v.natAbs
decreasing_by omega

def groupBytes : List Nat → List UInt8
  | [] => []
  | [g] => [UInt8.ofNat g]
  | g :: gs => UInt8.ofNat (g + 128) :: groupBytes gs

def uleb128 (n : Nat) : List UInt8 := groupBytes (sevens n)

def sleb128 (v : Int) : List UInt8 := groupBytes (signedSevens v)

/-- The number that groups stand for. -/
def groupValue : List Nat → Nat
  | [] => 0
  | g :: gs => g + 128 * groupValue gs

/-- The signed number, with the sign of its last group. -/
def groupInt (gs : List Nat) : Int :=
  if 64 ≤ gs.getLastD 0 then groupValue gs - 128 ^ gs.length else groupValue gs

@[simp]
theorem length_groupBytes (gs : List Nat) : (groupBytes gs).length = gs.length := by
  fun_induction groupBytes gs with
  | case1 => rfl
  | case2 => rfl
  | case3 g gs hgs ih => rw [List.length_cons, List.length_cons, ih]

/-! ## Unsigned numbers -/

theorem sevens_ne_nil (n : Nat) : sevens n ≠ [] := by
  rw [sevens]
  split <;> exact List.cons_ne_nil _ _

theorem lt_of_mem_sevens {n g : Nat} (h : g ∈ sevens n) : g < 128 := by
  fun_induction sevens n with
  | case1 n hn =>
    rw [List.mem_singleton] at h
    omega
  | case2 n hn ih =>
    rcases List.mem_cons.1 h with rfl | h
    · omega
    · exact ih h

theorem groupValue_sevens (n : Nat) : groupValue (sevens n) = n := by
  fun_induction sevens n with
  | case1 n hn => rfl
  | case2 n hn ih =>
    rw [groupValue, ih]
    omega

theorem length_sevens_le {n k : Nat} (h : n < 128 ^ (k + 1)) : (sevens n).length ≤ k + 1 := by
  induction k generalizing n with
  | zero =>
    rw [sevens, if_pos (by omega)]
    rfl
  | succ k ih =>
    rw [sevens]
    split
    · exact Nat.succ_le_succ (Nat.zero_le _)
    · have hdiv : n / 128 < 128 ^ (k + 1) := by
        rw [pow_succ] at h
        omega
      exact Nat.succ_le_succ (ih hdiv)

/-! ## Signed numbers -/

theorem signedSevens_ne_nil (v : Int) : signedSevens v ≠ [] := by
  rw [signedSevens]
  split <;> exact List.cons_ne_nil _ _

theorem lt_of_mem_signedSevens {v : Int} {g : Nat} (h : g ∈ signedSevens v) : g < 128 := by
  fun_induction signedSevens v with
  | case1 v hv =>
    rw [List.mem_singleton] at h
    omega
  | case2 v hv ih =>
    rcases List.mem_cons.1 h with rfl | h
    · omega
    · exact ih h

/-- The groups of a number give its low bits. -/
theorem groupValue_signedSevens (v : Int) :
    (groupValue (signedSevens v) : Int) = v % 128 ^ (signedSevens v).length := by
  fun_induction signedSevens v with
  | case1 v hv =>
    rw [List.length_singleton, pow_one, groupValue, groupValue]
    omega
  | case2 v hv ih =>
    have hdiv : v / 128 / 128 ^ (signedSevens (v / 128)).length =
        v / 128 ^ ((signedSevens (v / 128)).length + 1) := by
      rw [pow_succ', Int.ediv_ediv_of_nonneg (by norm_num)]
    rw [groupValue, List.length_cons]
    push_cast
    rw [ih, Int.emod_def (v / 128), hdiv, Int.emod_def v (128 ^ _), pow_succ', Int.mul_assoc]
    omega

theorem length_signedSevens_le {v : Int} {k : Nat} (h : -64 * 128 ^ k ≤ v ∧ v < 64 * 128 ^ k) :
    (signedSevens v).length ≤ k + 1 := by
  induction k generalizing v with
  | zero =>
    rw [signedSevens, if_pos (by omega)]
    rfl
  | succ k ih =>
    rw [signedSevens]
    split
    · exact Nat.succ_le_succ (Nat.zero_le _)
    · rw [pow_succ] at h
      exact Nat.succ_le_succ (ih (by omega))

theorem le_of_length_signedSevens_le {v : Int} {k : Nat} (h : (signedSevens v).length ≤ k + 1) :
    -64 * 128 ^ k ≤ v ∧ v < 64 * 128 ^ k := by
  induction k generalizing v with
  | zero =>
    rw [signedSevens] at h
    split at h
    · omega
    · have hpos := List.length_pos_of_ne_nil (signedSevens_ne_nil (v / 128))
      rw [List.length_cons] at h
      omega
  | succ k ih =>
    rw [signedSevens] at h
    rw [pow_succ]
    have hone : (1 : Int) ≤ 128 ^ k := one_le_pow₀ (by norm_num)
    split at h
    · omega
    · have := ih (Nat.le_of_succ_le_succ h)
      omega

/-- The last group has the sign. -/
theorem getLast_signedSevens {v : Int} {g : Nat} (h : (signedSevens v).getLast? = some g) : 64 ≤ g ↔ v < 0 := by
  fun_induction signedSevens v with
  | case1 v hv =>
    rw [List.getLast?_singleton, Option.some_inj] at h
    omega
  | case2 v hv ih =>
    rw [List.getLast?_cons_of_ne_nil (signedSevens_ne_nil _)] at h
    rw [ih h]
    omega

/-! ## Any groups -/

theorem groupValue_concat (gs : List Nat) (g : Nat) : groupValue (gs ++ [g]) = groupValue gs + 128 ^ gs.length * g := by
  induction gs with
  | nil => simp [groupValue]
  | cons a gs ih =>
    rw [List.cons_append, groupValue, groupValue, ih, List.length_cons, pow_succ]
    ring

theorem groupValue_lt {gs : List Nat} (hlt : ∀ g ∈ gs, g < 128) : groupValue gs < 128 ^ gs.length := by
  induction gs with
  | nil => exact Nat.one_pos
  | cons g gs ih =>
    rw [List.forall_mem_cons] at hlt
    have := ih hlt.2
    rw [groupValue, List.length_cons, pow_succ]
    omega

/-- A sign in the last group leaves the bits below it. -/
theorem groupInt_fits {gs : List Nat} (hne : gs ≠ []) (hlt : ∀ g ∈ gs, g < 128) (hneg : groupInt gs < 0) :
    (groupValue gs : Int) = groupInt gs + 128 ^ gs.length ∧ -64 * 128 ^ (gs.length - 1) ≤ groupInt gs := by
  obtain ⟨init, g, rfl⟩ := List.eq_nil_or_concat' gs |>.resolve_left hne
  have hlast : (init ++ [g]).getLastD 0 = g := by simp
  unfold groupInt at hneg ⊢
  rw [hlast] at hneg ⊢
  by_cases hsign : 64 ≤ g
  · rw [if_pos hsign] at hneg ⊢
    refine ⟨by ring, ?_⟩
    have hpow : (64 : Int) * 128 ^ init.length ≤ 128 ^ init.length * g := by
      rw [mul_comm]
      exact Int.mul_le_mul_of_nonneg_left (by exact_mod_cast hsign) (by positivity)
    rw [groupValue_concat, List.length_append, List.length_singleton, Nat.add_sub_cancel, pow_succ]
    push_cast
    linarith [Int.natCast_nonneg (groupValue init)]
  · rw [if_neg hsign] at hneg
    exact absurd hneg (not_lt.2 (Int.natCast_nonneg _))

end Egalito.Lib
