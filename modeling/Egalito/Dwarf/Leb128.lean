import Egalito.Dwarf.Walk
import Egalito.Lib.Leb128
/-!
# LEB128 numbers in the section

What `nextUleb128` and `nextSleb128` read off the encoding of a number, and for
which numbers that is the number itself. The groups are shifted as an `int`, so
that those from the fifth on lose bits or go to the wrong place.
-/

open Egalito.Lib

namespace Egalito.Dwarf

/-- What the rounds of the loop put together, before it is widened. -/
def joined : Nat → List Nat → BitVec 32
  | _, [] => 0
  | shift, g :: gs => BitVec.ofNat 32 g <<< (shift % 32) ||| joined (shift + 7) gs

/-! ## The loop -/

section Loop

variable {f : EhFrame} {pre post : List UInt8} {g : Nat} {gs : List Nat}

theorem and_low (n : Nat) : BitVec.ofNat 64 n &&& 0x7f = BitVec.ofNat 64 (n % 128) := by
  apply BitVec.eq_of_toNat_eq
  rw [BitVec.toNat_and, BitVec.toNat_ofNat, BitVec.toNat_ofNat]
  have hmask : (0x7f : BitVec 64).toNat = 2 ^ 7 - 1 := rfl
  rw [hmask, Nat.and_two_pow_sub_one_eq_mod]
  omega

theorem leb128Part_ofNat (n : Nat) (shift : Nat) :
    leb128Part (BitVec.ofNat 64 n) shift = (BitVec.ofNat 32 (n % 128) <<< (shift % 32)).signExtend 64 := by
  unfold leb128Part
  rw [and_low, BitVec.setWidth_ofNat_of_le (by decide)]

theorem high_bit : ∀ g : Fin 128, BitVec.ofNat 64 g.val &&& 0x80 = 0 ∧ BitVec.ofNat 64 (g.val + 128) &&& 0x80 ≠ 0 ∧
    (BitVec.ofNat 64 g.val &&& 0x40 ≠ 0 ↔ 64 ≤ g.val) := by
  decide

/-- The loop takes one byte for each group. -/
theorem nextLeb128_run (start : Address) (shift : Nat) (hne : gs ≠ []) (hlt : ∀ g ∈ gs, g < 128) (hlast : gs.getLast? = some g) {rounds : Nat}
    (hrounds : gs.length ≤ rounds) (result : BitVec 64) (hf : f.bytes = pre ++ (groupBytes gs ++ post)) :
    (nextLeb128 f rounds result shift).run ⟨start, f.place pre.length⟩ =
      some ((result ||| (joined shift gs).signExtend 64, shift + 7 * gs.length, BitVec.ofNat 64 g),
        ⟨start, f.place (pre.length + gs.length)⟩) := by
  induction gs generalizing pre rounds result shift with
  | nil => exact absurd rfl hne
  | cons a gs ih =>
    rw [List.forall_mem_cons] at hlt
    obtain ⟨rounds, rfl⟩ : ∃ r, rounds = r + 1 := ⟨rounds - 1, by rw [List.length_cons] at hrounds; omega⟩
    obtain ⟨hlow, hhigh, -⟩ := high_bit ⟨a, hlt.1⟩
    rw [nextLeb128, StateT.run_bind, next_run]
    cases gs with
    | nil =>
      rw [List.getLast?_singleton, Option.some_inj] at hlast
      subst hlast
      have hread : f.read 1 (f.place pre.length) = some (BitVec.ofNat 64 a) :=
        EhFrame.read_written (by simpa [groupBytes, leBytes] using hf) (by omega)
      simp only [hread, Option.map_some, Option.bind_eq_bind, Option.bind_some, hlow, ne_eq, not_true_eq_false,
        if_false, EhFrame.place_add]
      simp [joined, leb128Part_ofNat, Nat.mod_eq_of_lt hlt.1]
    | cons b gs =>
      have hbytes : f.bytes = pre ++ (leBytes 1 (a + 128) ++ (groupBytes (b :: gs) ++ post)) := hf
      have hread : f.read 1 (f.place pre.length) = some (BitVec.ofNat 64 (a + 128)) :=
        EhFrame.read_written hbytes (by omega)
      have hnext : f.bytes = (pre ++ leBytes 1 (a + 128)) ++ (groupBytes (b :: gs) ++ post) := by
        rw [hbytes, List.append_assoc]
      have hrest := ih (shift + 7) (List.cons_ne_nil b gs) hlt.2 (by rwa [List.getLast?_cons_cons] at hlast)
        (Nat.le_of_succ_le_succ hrounds) (result ||| leb128Part (BitVec.ofNat 64 (a + 128)) shift)
        hnext
      rw [List.length_append, length_leBytes] at hrest
      simp only [hread, Option.map_some, Option.bind_eq_bind, Option.bind_some, hhigh, ne_eq, not_false_eq_true,
        if_true, EhFrame.place_add, hrest]
      have hgroup : (a + 128) % 128 = a := by omega
      have hshift : shift + 7 + 7 * (b :: gs).length = shift + 7 * (a :: b :: gs).length := by
        simp only [List.length_cons]
        omega
      have hplace : pre.length + 1 + (b :: gs).length = pre.length + (a :: b :: gs).length := by
        simp only [List.length_cons]
        omega
      rw [leb128Part_ofNat, hgroup, hshift, hplace, BitVec.or_assoc, ← BitVec.signExtend_or]
      rfl

end Loop

/-! ## The value -/

theorem joined_of_lt {shift : Nat} {gs : List Nat} (hlt : ∀ g ∈ gs, g < 128) (h : shift + 7 * gs.length < 39) :
    joined shift gs = BitVec.ofNat 32 (2 ^ shift * groupValue gs) := by
  induction gs generalizing shift with
  | nil => simp [joined, groupValue]
  | cons g gs ih =>
    rw [List.forall_mem_cons] at hlt
    rw [List.length_cons] at h
    have hor : 2 ^ shift * groupValue (g :: gs) = 2 ^ (shift + 7) * groupValue gs ||| 2 ^ shift * g := by
      rw [← Nat.two_pow_add_eq_or_of_lt, groupValue, pow_add]
      · ring
      · rw [pow_add]
        exact Nat.mul_lt_mul_of_pos_left hlt.1 (Nat.two_pow_pos _)
    rw [joined, ih hlt.2 (by omega), Nat.mod_eq_of_lt (by omega), hor, BitVec.ofNat_or, BitVec.or_comm]
    congr 1
    apply BitVec.eq_of_toNat_eq
    simp [Nat.shiftLeft_eq, Nat.mul_comm]

/-- The widened bits are below 2^31, or have all the upper bits set. -/
theorem toInt_joined (shift : Nat) (gs : List Nat) :
    -2 ^ 31 ≤ ((joined shift gs).signExtend 64).toInt ∧ ((joined shift gs).signExtend 64).toInt < 2 ^ 31 := by
  rw [BitVec.toInt_signExtend_of_le (by decide)]
  exact ⟨BitVec.le_toInt _, BitVec.toInt_lt⟩

theorem joined_append (shift : Nat) (gs hs : List Nat) :
    joined shift (gs ++ hs) = joined shift gs ||| joined (shift + 7 * gs.length) hs := by
  induction gs generalizing shift with
  | nil => simp [joined]
  | cons g gs ih =>
    have hshift : shift + 7 + 7 * gs.length = shift + 7 * (g :: gs).length := by
      rw [List.length_cons]
      omega
    rw [List.cons_append, joined, joined, ih, BitVec.or_assoc, hshift]

theorem signExtend_ofNat {n : Nat} (h : n < 2 ^ 31) : (BitVec.ofNat 32 n).signExtend 64 = BitVec.ofNat 64 n := by
  apply BitVec.eq_of_toInt_eq
  rw [BitVec.toInt_signExtend_of_le (by decide), BitVec.toInt_ofNat', BitVec.toInt_ofNat']
  rw [Int.bmod_eq_of_le (by omega) (by omega), Int.bmod_eq_of_le (by omega) (by omega)]

/-- The upper five groups of a number with all upper bits set fill the lower bits. -/
theorem joined_high {n : Nat} (hn : 2 ^ 64 - 2 ^ 31 ≤ n) (hlt : n < 2 ^ 64) :
    joined 0 (sevens n) = BitVec.ofNat 32 n ||| 0xfffffff8 := by
  have hcons : ∀ m, 128 ≤ m → sevens m = m % 128 :: sevens (m / 128) := fun m hm => by
    rw [sevens, if_neg (by omega)]
  have hupper : sevens (2 ^ 29 - 1) = [127, 127, 127, 127, 1] := by simp [sevens]
  have hlow : sevens n = [n % 128, n / 128 % 128, n / 128 / 128 % 128, n / 128 / 128 / 128 % 128,
      n / 128 / 128 / 128 / 128 % 128] ++ sevens (2 ^ 29 - 1) := by
    rw [hcons n (by omega), hcons (n / 128) (by omega), hcons (n / 128 / 128) (by omega),
      hcons (n / 128 / 128 / 128) (by omega), hcons (n / 128 / 128 / 128 / 128) (by omega)]
    have : n / 128 / 128 / 128 / 128 / 128 = 2 ^ 29 - 1 := by omega
    rw [this]
    rfl
  have hconst : joined 35 [127, 127, 127, 127, 1] = 0xfffffff8 := by decide
  rw [hlow, joined_append, hupper, joined_of_lt (by simp; omega) (by simp)]
  refine congrArg₂ _ ?_ hconst
  apply BitVec.eq_of_toNat_eq
  rw [BitVec.toNat_ofNat, BitVec.toNat_ofNat]
  simp only [groupValue]
  omega

/-- Unsigned numbers that the loop gives back. -/
theorem uleb128_value_iff (x : BitVec 64) :
    (joined 0 (sevens x.toNat)).signExtend 64 = x ↔ x.toNat < 2 ^ 31 ∨ 2 ^ 64 - 8 ≤ x.toNat := by
  have hx := x.isLt
  constructor
  · intro h
    have hrange := toInt_joined 0 (sevens x.toNat)
    rw [h, BitVec.toInt_eq_toNat_cond] at hrange
    by_cases hlow : x.toNat < 2 ^ 31
    · exact .inl hlow
    · have hhigh : 2 ^ 64 - 2 ^ 31 ≤ x.toNat := by
        split at hrange <;> omega
      rw [joined_high hhigh hx, BitVec.signExtend_or] at h
      have hle : (BitVec.signExtend 64 (0xfffffff8 : BitVec 32)).toNat ≤ x.toNat := by
        rw [← h, BitVec.toNat_or]
        exact Nat.right_le_or
      exact .inr hle
  · rintro (h | h)
    · have hlen : (sevens x.toNat).length ≤ 5 := length_sevens_le (by omega)
      rw [joined_of_lt (fun _ => lt_of_mem_sevens) (by omega), groupValue_sevens, pow_zero, Nat.one_mul,
        signExtend_ofNat h, BitVec.ofNat_toNat, BitVec.setWidth_eq]
    · rw [joined_high (by omega) hx]
      obtain ⟨k, hk, hk8⟩ : ∃ k, x.toNat = 2 ^ 64 - 8 + k ∧ k < 8 := ⟨x.toNat - (2 ^ 64 - 8), by omega, by omega⟩
      have hval : x = BitVec.ofNat 64 (2 ^ 64 - 8 + k) := by rw [← hk, BitVec.ofNat_toNat, BitVec.setWidth_eq]
      rw [hk, hval]
      interval_cases k <;> decide

/-- `LONG_LONG_MAX << shift`. -/
def signFill (shift : Nat) : BitVec 64 := ((0x7fffffffffffffff <<< (shift % 64) : Nat) : BitVec 64)

/-- What `nextSleb128` makes of the groups of a number. -/
def signedValue (v : Int) : BitVec 64 :=
  let gs := signedSevens v
  if v < 0 then (joined 0 gs).signExtend 64 ||| signFill (7 * gs.length) else (joined 0 gs).signExtend 64

/-- The sign fills the bits above the groups. -/
theorem toNat_signFill {k : Nat} (hk : 0 < k) (hk9 : k ≤ 9) :
    (signFill (7 * k)).toNat = 2 ^ (7 * k) * (2 ^ (64 - 7 * k) - 1) := by
  interval_cases k <;> decide

theorem toNat_or_signFill {k : Nat} (hk : 0 < k) (hk9 : k ≤ 9) {a : BitVec 64} (ha : a.toNat < 2 ^ (7 * k)) :
    (a ||| signFill (7 * k)).toNat = 2 ^ (7 * k) * (2 ^ (64 - 7 * k) - 1) + a.toNat := by
  rw [BitVec.or_comm, BitVec.toNat_or, toNat_signFill hk hk9, Nat.two_pow_add_eq_or_of_lt ha]

/-- A negative number that needs more than 31 bits is not given back. -/
theorem signedValue_ne_of_lt {x : BitVec 64} (h : x.toInt < -2 ^ 31) : signedValue x.toInt ≠ x := by
  intro heq
  have hx := x.isLt
  have hneg : x.toInt < 0 := by omega
  have hbound := BitVec.le_toInt x
  have hcond := BitVec.toInt_eq_toNat_cond x
  rw [signedValue, if_pos hneg] at heq
  set k := (signedSevens x.toInt).length with hk
  have hk5 : 5 ≤ k := by
    by_contra hlt
    have := le_of_length_signedSevens_le (v := x.toInt) (k := 3) (by omega)
    omega
  have hk10 : k ≤ 10 := length_signedSevens_le (k := 9) (by omega)
  rcases Nat.lt_or_eq_of_le hk10 with hk9 | hk9
  · have hsign := le_of_length_signedSevens_le (v := x.toInt) (k := k - 1) (by omega)
    set a := (joined 0 (signedSevens x.toInt)).signExtend 64
    have ha : -2 ^ 31 ≤ a.toInt ∧ a.toInt < 2 ^ 31 := toInt_joined _ _
    have hacond := BitVec.toInt_eq_toNat_cond a
    rcases lt_or_ge a.toInt 0 with hlt | hge
    · -- the upper bits are all set, and the fill keeps them
      have hle : a.toNat ≤ x.toNat := by
        rw [← heq, BitVec.toNat_or]
        exact Nat.left_le_or
      split at hcond <;> split at hacond <;> omega
    · have hsmall : a.toNat < 2 ^ 31 := by
        split at hacond <;> omega
      have hnat := congrArg BitVec.toNat heq
      rw [toNat_or_signFill (by omega) (by omega)
        (hsmall.trans_le (Nat.pow_le_pow_right (by decide) (by omega)))] at hnat
      interval_cases k <;> split at hcond <;> omega
  · -- ten groups shift the fill to bit six
    have hle : (signFill (7 * k)).toNat ≤ x.toNat := by
      rw [← heq, BitVec.toNat_or]
      exact Nat.right_le_or
    have hconst : (signFill (7 * 10)).toNat = 2 ^ 64 - 64 := by decide
    rw [hk9, hconst] at hle
    split at hcond <;> omega

theorem joined_signedSevens {v : Int} (hlen : (signedSevens v).length ≤ 5) :
    joined 0 (signedSevens v) = BitVec.ofNat 32 (v % 128 ^ (signedSevens v).length).toNat := by
  rw [joined_of_lt (fun _ => lt_of_mem_signedSevens) (by omega), pow_zero, Nat.one_mul, ← groupValue_signedSevens,
    Int.toNat_natCast]

theorem signedValue_of_nonneg {x : BitVec 64} (h0 : 0 ≤ x.toInt) (h : x.toInt < 2 ^ 31) :
    signedValue x.toInt = x := by
  have hlen : (signedSevens x.toInt).length ≤ 5 := length_signedSevens_le (k := 4) (by omega)
  have hpos := List.length_pos_of_ne_nil (signedSevens_ne_nil x.toInt)
  have hfit := le_of_length_signedSevens_le (v := x.toInt) (k := (signedSevens x.toInt).length - 1) (by omega)
  have hmod : x.toInt % 128 ^ (signedSevens x.toInt).length = x.toInt := by
    apply Int.emod_eq_of_lt h0
    refine hfit.2.trans_le ?_
    rw [show (128 : Int) ^ (signedSevens x.toInt).length = 128 * 128 ^ ((signedSevens x.toInt).length - 1) by
      rw [← pow_succ', Nat.sub_add_cancel hpos]]
    exact Int.mul_le_mul_of_nonneg_right (by norm_num) (by positivity)
  have hcond := BitVec.toInt_eq_toNat_cond x
  have hnat : x.toInt.toNat = x.toNat := by
    split at hcond <;> omega
  rw [signedValue, if_neg (by omega), joined_signedSevens hlen, hmod, hnat, signExtend_ofNat (by omega),
    BitVec.ofNat_toNat, BitVec.setWidth_eq]

/-- The low groups of a negative number of 32 bits and the fill give it back. -/
theorem or_signFill_of_neg {x : BitVec 64} {k : Nat} (h : -2 ^ 31 ≤ x.toInt) (h0 : x.toInt < 0) (hpos : 0 < k)
    (hk5 : k ≤ 5) (hfit : -64 * 128 ^ (k - 1) ≤ x.toInt) :
    (BitVec.ofNat 32 (x.toInt % 128 ^ k).toNat).signExtend 64 ||| signFill (7 * k) = x := by
  have hcond := BitVec.toInt_eq_toNat_cond x
  rw [if_neg (by intro hle; rw [if_pos hle] at hcond; omega)] at hcond
  apply BitVec.eq_of_toNat_eq
  rcases Nat.lt_or_eq_of_le hk5 with hk | rfl
  · have hlow : (x.toInt % 128 ^ k).toNat < 2 ^ (7 * k) ∧
        2 ^ (7 * k) * (2 ^ (64 - 7 * k) - 1) + (x.toInt % 128 ^ k).toNat = x.toNat := by
      interval_cases k <;> omega
    have hsmall : (x.toInt % 128 ^ k).toNat < 2 ^ 31 :=
      hlow.1.trans_le (Nat.pow_le_pow_right (by decide) (by omega))
    rw [signExtend_ofNat hsmall]
    have hval : (BitVec.ofNat 64 (x.toInt % 128 ^ k).toNat).toNat = (x.toInt % 128 ^ k).toNat := by
      rw [BitVec.toNat_ofNat]
      omega
    rw [toNat_or_signFill hpos (by omega) (by rw [hval]; exact hlow.1), hval, hlow.2]
  · -- the fifth group sets bit 31, and the fill adds nothing
    have hwide : (BitVec.ofNat 32 (x.toInt % 128 ^ 5).toNat).signExtend 64 = x := by
      apply BitVec.eq_of_toInt_eq
      rw [BitVec.toInt_signExtend_of_le (by decide), BitVec.toInt_eq_toNat_cond, BitVec.toNat_ofNat]
      split <;> omega
    have hsplit : x = BitVec.ofNat 64 (x.toNat - 2 ^ 35 * (2 ^ 29 - 1)) ||| signFill (7 * 5) := by
      apply BitVec.eq_of_toNat_eq
      have hval : (BitVec.ofNat 64 (x.toNat - 2 ^ 35 * (2 ^ 29 - 1))).toNat = x.toNat - 2 ^ 35 * (2 ^ 29 - 1) := by
        rw [BitVec.toNat_ofNat]
        omega
      rw [toNat_or_signFill (by decide) (by decide) (by rw [hval]; omega), hval]
      omega
    rw [hwide, hsplit, BitVec.or_assoc, BitVec.or_self]

theorem signedValue_of_neg {x : BitVec 64} (h : -2 ^ 31 ≤ x.toInt) (h0 : x.toInt < 0) : signedValue x.toInt = x := by
  have hlen : (signedSevens x.toInt).length ≤ 5 := length_signedSevens_le (k := 4) (by omega)
  have hpos := List.length_pos_of_ne_nil (signedSevens_ne_nil x.toInt)
  have hfit := le_of_length_signedSevens_le (v := x.toInt) (k := (signedSevens x.toInt).length - 1) (by omega)
  rw [signedValue, if_pos h0, joined_signedSevens hlen]
  exact or_signFill_of_neg h h0 hpos hlen hfit.1

/-- Signed numbers that the loop gives back. -/
theorem sleb128_value_iff (x : BitVec 64) : signedValue x.toInt = x ↔ -2 ^ 31 ≤ x.toInt ∧ x.toInt < 2 ^ 31 := by
  constructor
  · intro h
    refine ⟨not_lt.1 fun hlt => signedValue_ne_of_lt hlt h, ?_⟩
    by_cases h0 : x.toInt < 0
    · omega
    · rw [signedValue, if_neg h0] at h
      have hrange := toInt_joined 0 (signedSevens x.toInt)
      rw [h] at hrange
      exact hrange.2
  · rintro ⟨hlow, hhigh⟩
    rcases lt_or_ge x.toInt 0 with h0 | h0
    · exact signedValue_of_neg hlow h0
    · exact signedValue_of_nonneg h0 hhigh

/-! ## The readers -/

section Readers

variable {f : EhFrame} {pre post : List UInt8} {start : Address}

theorem length_le_of_bytes {gs : List Nat} (hf : f.bytes = pre ++ (groupBytes gs ++ post)) :
    gs.length ≤ f.bytes.length + 1 := by
  rw [hf, List.length_append, List.length_append, length_groupBytes]
  omega

theorem nextUleb128_run {n : Nat} (hf : f.bytes = pre ++ (uleb128 n ++ post)) :
    (nextUleb128 f).run ⟨start, f.place pre.length⟩ =
      some ((joined 0 (sevens n)).signExtend 64, ⟨start, f.place (pre.length + (uleb128 n).length)⟩) := by
  obtain ⟨g, hg⟩ : ∃ g, (sevens n).getLast? = some g := ⟨_, List.getLast?_eq_some_getLast (sevens_ne_nil n)⟩
  have hloop := nextLeb128_run start 0 (sevens_ne_nil n) (fun _ => lt_of_mem_sevens) hg
    (length_le_of_bytes hf) 0 hf
  have hzero : (0 : BitVec 64) ||| (joined 0 (sevens n)).signExtend 64 = _ := BitVec.zero_or
  rw [nextUleb128, StateT.run_bind, hloop, uleb128, length_groupBytes, hzero]
  rfl

theorem nextSleb128_run {v : Int} (hv : -2 ^ 63 ≤ v ∧ v < 2 ^ 63) (hf : f.bytes = pre ++ (sleb128 v ++ post)) :
    (nextSleb128 f).run ⟨start, f.place pre.length⟩ =
      some (signedValue v, ⟨start, f.place (pre.length + (sleb128 v).length)⟩) := by
  obtain ⟨g, hg⟩ : ∃ g, (signedSevens v).getLast? = some g := ⟨_, List.getLast?_eq_some_getLast (signedSevens_ne_nil v)⟩
  have hloop := nextLeb128_run start 0 (signedSevens_ne_nil v) (fun _ => lt_of_mem_signedSevens)
    hg (length_le_of_bytes hf) 0 hf
  have hlen : (signedSevens v).length ≤ 10 := length_signedSevens_le (k := 9) (by omega)
  have hsign : BitVec.ofNat 64 g &&& 0x40 ≠ 0 ↔ v < 0 := by
    have hlt : g < 128 := lt_of_mem_signedSevens (List.mem_of_getLast? hg)
    rw [(high_bit ⟨g, hlt⟩).2.2, getLast_signedSevens hg]
  have hzero : (0 : BitVec 64) ||| (joined 0 (signedSevens v)).signExtend 64 = _ := BitVec.zero_or
  rw [nextSleb128, StateT.run_bind, hloop, sleb128, length_groupBytes, hzero, Nat.zero_add]
  simp only [Option.bind_eq_bind, Option.bind_some, hsign, signedValue]
  by_cases hneg : v < 0
  · rw [if_pos ⟨hneg, by omega⟩, if_pos hneg]
    rfl
  · rw [if_neg (fun h => hneg h.1), if_neg hneg]
    rfl

end Readers

/-- The readers give back an unsigned number exactly when it is below 2^31 or one of the eight largest,
and a signed one exactly when it has 32 bits. -/
theorem leb128_exact_iff (f : EhFrame) (pre post : List UInt8) (start : Address) (x : BitVec 64) :
    (f.bytes = pre ++ (uleb128 x.toNat ++ post) →
      ((nextUleb128 f).run ⟨start, f.place pre.length⟩ =
          some (x, ⟨start, f.place (pre.length + (uleb128 x.toNat).length)⟩) ↔
        x.toNat < 2 ^ 31 ∨ 2 ^ 64 - 8 ≤ x.toNat)) ∧
    (f.bytes = pre ++ (sleb128 x.toInt ++ post) →
      ((nextSleb128 f).run ⟨start, f.place pre.length⟩ =
          some (x, ⟨start, f.place (pre.length + (sleb128 x.toInt).length)⟩) ↔
        -2 ^ 31 ≤ x.toInt ∧ x.toInt < 2 ^ 31)) := by
  refine ⟨fun hf => ?_, fun hf => ?_⟩
  · rw [nextUleb128_run hf, ← uleb128_value_iff]
    simp
  · rw [nextSleb128_run ⟨BitVec.le_toInt x, BitVec.toInt_lt⟩ hf, ← sleb128_value_iff]
    simp

/-- The numbers 5 and -2. -/
def smallNumbers : EhFrame := ⟨0, 0, [0x05, 0x7e], by decide⟩

theorem uleb128_five : uleb128 5 = [0x05] := by
  simp [uleb128, sevens, groupBytes]

theorem sleb128_minus_two : sleb128 (-2) = [0x7e] := by
  simp [sleb128, signedSevens, groupBytes]

theorem leb128_exact_sample :
    (nextUleb128 smallNumbers).run ⟨0, smallNumbers.place 0⟩ = some (5, ⟨0, smallNumbers.place 1⟩) ∧
    (nextSleb128 smallNumbers).run ⟨0, smallNumbers.place 1⟩ = some (-2, ⟨0, smallNumbers.place 2⟩) := by
  have hfive : uleb128 (5 : BitVec 64).toNat = [0x05] := uleb128_five
  have htwo : sleb128 (-2 : BitVec 64).toInt = [0x7e] := sleb128_minus_two
  have hunsigned := (leb128_exact_iff smallNumbers [] [0x7e] 0 5).1 (by rw [hfive]; rfl)
  have hsigned := (leb128_exact_iff smallNumbers [0x05] [] 0 (-2)).2 (by rw [htwo]; rfl)
  rw [hfive] at hunsigned
  rw [htwo] at hsigned
  exact ⟨hunsigned.2 (by decide), hsigned.2 (by decide)⟩

/-- The number 2^31. -/
def bit31 : EhFrame := ⟨0, 0, [0x80, 0x80, 0x80, 0x80, 0x08], by decide⟩

/-- Bit 31 of a number spreads to all the bits above it. -/
theorem bit31_spreads : bit31.bytes = uleb128 (2 ^ 31) ∧
    (nextUleb128 bit31).run ⟨0, 0⟩ = some (0xffffffff80000000, ⟨0, 5⟩) := by
  refine ⟨?_, by decide⟩
  simp [bit31, uleb128, sevens, groupBytes]

end Egalito.Dwarf
