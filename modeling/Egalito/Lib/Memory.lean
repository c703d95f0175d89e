import Mathlib.Tactic
import Mathlib.Data.BitVec
/-!
# Memory of bytes

A memory with addresses of `w` bits that wrap around, and words of `n` bytes in
it, least significant byte first. `Apart` says when a word is not touched by a
write to another one.
-/

namespace Egalito.Lib

variable {w n : Nat} {m m' : BitVec w → BitVec 8} {a b x : BitVec w} {v : BitVec (8 * n)}

/-- The word of `n` bytes at `a`. -/
def readWord : (n : Nat) → (BitVec w → BitVec 8) → BitVec w → BitVec (8 * n)
  | 0, _, _ => 0#0
  | n + 1, m, a => (readWord n m (a + 1) ++ m a : BitVec (8 * n + 8))

def writeWord (m : BitVec w → BitVec 8) (a : BitVec w) (v : BitVec (8 * n)) : BitVec w → BitVec 8 := fun x =>
  if (x - a).toNat < n then v.extractLsb' (8 * (x - a).toNat) 8 else m x

theorem getLsbD_readWord {i : Nat} (hi : i < 8 * n) :
    (readWord n m a).getLsbD i = (m (a + BitVec.ofNat w (i / 8))).getLsbD (i % 8) := by
  induction n generalizing a i with
  | zero => omega
  | succ n ih =>
    rw [readWord, BitVec.getLsbD_append]
    split
    · rename_i hlow
      rw [show i / 8 = 0 by omega, show i % 8 = i by omega, BitVec.add_zero]
    · have hnext : a + 1 + BitVec.ofNat w ((i - 8) / 8) = a + BitVec.ofNat w (i / 8) := by
        rw [show i / 8 = 1 + (i - 8) / 8 by omega, BitVec.ofNat_add, ← BitVec.add_assoc]
        rfl
      rw [ih (by omega), hnext, show (i - 8) % 8 = i % 8 by omega]

theorem readWord_congr (h : ∀ i < n, m' (a + BitVec.ofNat w i) = m (a + BitVec.ofNat w i)) :
    readWord n m' a = readWord n m a := by
  refine BitVec.eq_of_getLsbD_eq fun i hi => ?_
  rw [getLsbD_readWord hi, getLsbD_readWord hi, h (i / 8) (by omega)]

/-- The bytes of a word can be read off it. -/
theorem readWord_inj (h : readWord n m' a = readWord n m a) {i : Nat} (hi : i < n) :
    m' (a + BitVec.ofNat w i) = m (a + BitVec.ofNat w i) := by
  refine BitVec.eq_of_getLsbD_eq fun j hj => ?_
  have hbit : (readWord n m' a).getLsbD (8 * i + j) = (readWord n m a).getLsbD (8 * i + j) := by rw [h]
  rwa [getLsbD_readWord (by omega), getLsbD_readWord (by omega), show (8 * i + j) / 8 = i by omega, show (8 * i + j) % 8 = j by omega] at hbit

theorem toNat_offset {i : Nat} (hi : i < 2 ^ w) : (a + BitVec.ofNat w i - a).toNat = i := by
  rw [BitVec.add_comm, BitVec.add_sub_cancel, BitVec.toNat_ofNat, Nat.mod_eq_of_lt hi]

theorem writeWord_of_lt (h : (x - a).toNat < n) : writeWord m a v x = v.extractLsb' (8 * (x - a).toNat) 8 := if_pos h

theorem writeWord_of_le (h : n ≤ (x - a).toNat) : writeWord m a v x = m x := if_neg (by omega)

theorem readWord_writeWord (hn : n ≤ 2 ^ w) : readWord n (writeWord m a v) a = v := by
  refine BitVec.eq_of_getLsbD_eq fun i hi => ?_
  have hoffset : (a + BitVec.ofNat w (i / 8) - a).toNat = i / 8 := toNat_offset (by omega)
  rw [getLsbD_readWord hi, writeWord_of_lt (by omega), hoffset, BitVec.getLsbD_extractLsb', decide_eq_true (by omega), Bool.true_and]
  congr 1
  omega

/-- The `k` bytes at `b` are none of the `n` bytes at `a`. -/
def Apart (n k : Nat) (a b : BitVec w) : Prop := ∀ i < k, n ≤ (b + BitVec.ofNat w i - a).toNat

theorem readWord_writeWord_of_apart {k : Nat} (h : Apart n k a b) : readWord k (writeWord m a v) b = readWord k m b :=
  readWord_congr fun i hi => writeWord_of_le (h i hi)

theorem apart_of_distance {k d : Nat} (hd : (b - a).toNat = d) (hn : n ≤ d) (hk : d + k ≤ 2 ^ w) : Apart n k a b := by
  intro i hi
  have he : b + BitVec.ofNat w i - a = b - a + BitVec.ofNat w i := by
    ring
  rw [he, BitVec.toNat_add, hd, BitVec.toNat_ofNat, Nat.mod_eq_of_lt (show i < 2 ^ w by omega), Nat.mod_eq_of_lt (by omega)]
  omega

/-- A word at `a'` in a memory that is written at `R` is that at `a` before, whatever was there, only if it is the same
bytes and none of them is written. -/
theorem readWord_overlay_iff {R : BitVec w → Prop} {F : (BitVec w → BitVec 8) → BitVec w → BitVec 8} {a' : BitVec w}
    (hn : 0 < n) (hw : 2 * n ≤ 2 ^ w) (hout : ∀ m x, ¬ R x → F m x = m x) (hin : ∀ m m' x, R x → F m x = F m' x) :
    (∀ m, readWord n (F m) a' = readWord n m a) ↔ a' = a ∧ ∀ i < n, ¬ R (a + BitVec.ofNat w i) := by
  constructor
  · intro h
    have hbyte : ∀ i < n, ∃ j < n, a' + BitVec.ofNat w j = a + BitVec.ofNat w i ∧ ¬ R (a + BitVec.ofNat w i) := by
      intro i hi
      by_contra hnone
      push Not at hnone
      have hsame : readWord n (F fun _ => 0) a' = readWord n (F (Function.update (fun _ => 0) (a + BitVec.ofNat w i) 1)) a' := by
        refine readWord_congr fun j hj => ?_
        by_cases hR : R (a' + BitVec.ofNat w j)
        · exact hin _ _ _ hR
        · rw [hout _ _ hR, hout _ _ hR]
          have hne : a' + BitVec.ofNat w j ≠ a + BitVec.ofNat w i := fun he => hR (by rw [he]; exact hnone j hj he)
          rw [Function.update_of_ne hne]
      rw [h, h] at hsame
      have hdiff := readWord_inj hsame hi
      rw [Function.update_self] at hdiff
      revert hdiff
      decide
    obtain ⟨j, hj, hfirst, -⟩ := hbyte 0 hn
    rw [BitVec.add_zero] at hfirst
    obtain ⟨k, hk, hlast, -⟩ := hbyte (n - 1) (by omega)
    -- the last byte is `n - 1` behind the first one, so the first one is at the beginning
    have hjk : BitVec.ofNat w k = BitVec.ofNat w (j + (n - 1)) := by
      rw [BitVec.ofNat_add]
      linear_combination hlast - hfirst
    have hzero : j = 0 := by
      have := congrArg BitVec.toNat hjk
      rw [BitVec.toNat_ofNat, BitVec.toNat_ofNat, Nat.mod_eq_of_lt (by omega), Nat.mod_eq_of_lt (by omega)] at this
      omega
    subst hzero
    exact ⟨by simpa using hfirst, fun i hi => (hbyte i hi).choose_spec.2.2⟩
  · rintro ⟨rfl, hR⟩ m
    exact readWord_congr fun i hi => hout m _ (hR i hi)

end Egalito.Lib
