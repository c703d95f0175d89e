import Egalito.Lib.Stream
/-!
# Fields in bytes

Copies into a memory, the replacement of a field in a list of bytes, and signed
little-endian numbers of up to eight bytes.
-/

namespace Egalito.Lib

section Copies

variable {β : Type} {mem : Nat → β} {target offset k : Nat} {bytes bs cs field : List β}

/-- `memcpy` of `bytes` to `target`. -/
def copyTo (mem : Nat → β) (target : Nat) (bytes : List β) : Nat → β := fun x =>
  if target ≤ x then (bytes[x - target]?).getD (mem x) else mem x

theorem copyTo_append (mem : Nat → β) (target : Nat) (bs cs : List β) :
    copyTo (copyTo mem target bs) (target + bs.length) cs = copyTo mem target (bs ++ cs) := by
  funext x
  unfold copyTo
  by_cases hx : target ≤ x
  · by_cases hbs : x - target < bs.length
    · rw [if_neg (by omega), if_pos hx, if_pos hx, List.getElem?_append_left hbs]
    · have hnone : bs[x - target]? = none := List.getElem?_eq_none (Nat.le_of_not_lt hbs)
      rw [if_pos (by omega), if_pos hx, if_pos hx, List.getElem?_append_right (Nat.le_of_not_lt hbs), hnone,
        Nat.sub_sub, Option.getD_none]
  · rw [if_neg (by omega), if_neg hx, if_neg hx]

/-- The bytes from `offset` on replaced by those of a field. -/
def setAt (bytes : List β) (offset : Nat) (field : List β) : List β :=
  bytes.take offset ++ (field ++ bytes.drop (offset + field.length))

theorem length_setAt (h : offset + field.length ≤ bytes.length) : (setAt bytes offset field).length = bytes.length := by
  simp only [setAt, List.length_append, List.length_take, List.length_drop]
  omega

theorem getElem?_setAt_outside (h : offset + field.length ≤ bytes.length) (hk : k < offset ∨ offset + field.length ≤ k) :
    (setAt bytes offset field)[k]? = bytes[k]? := by
  have hlen : (bytes.take offset).length = offset := by
    rw [List.length_take]
    omega
  unfold setAt
  rcases hk with hk | hk
  · rw [List.getElem?_append_left (by omega), List.getElem?_take_of_lt hk]
  · rw [List.getElem?_append_right (by omega), hlen, List.getElem?_append_right (by omega), List.getElem?_drop]
    congr 1
    omega

theorem getElem?_setAt_inside (h : offset ≤ bytes.length) (hk : k < field.length) :
    (setAt bytes offset field)[offset + k]? = field[k]? := by
  have hlen : (bytes.take offset).length = offset := by
    rw [List.length_take]
    omega
  rw [setAt, List.getElem?_append_right (by omega), hlen, Nat.add_sub_cancel_left, List.getElem?_append_left hk]

theorem take_drop_setAt (h : offset ≤ bytes.length) : ((setAt bytes offset field).drop offset).take field.length = field := by
  have hlen : (bytes.take offset).length = offset := by
    rw [List.length_take]
    omega
  rw [setAt, List.drop_left' hlen, List.take_left]

theorem setAt_setAt {field' : List β} (h : offset ≤ bytes.length) (hlen : field'.length = field.length) :
    setAt (setAt bytes offset field) offset field' = setAt bytes offset field' := by
  have htake : (bytes.take offset).length = offset := by
    rw [List.length_take]
    omega
  unfold setAt
  rw [List.take_left' htake, hlen, ← List.drop_drop, List.drop_left' htake, List.drop_left]

/-- Fields of one length are what is set. -/
theorem setAt_inj {field' : List β} (h : offset ≤ bytes.length) (hlen : field'.length = field.length)
    (heq : setAt bytes offset field = setAt bytes offset field') : field = field' := by
  have hfield : ((setAt bytes offset field).drop offset).take field.length = field := take_drop_setAt h
  rw [heq, ← hlen, take_drop_setAt h] at hfield
  exact hfield.symm

/-- A field of the middle part. -/
theorem setAt_middle {pre mid post : List β} {position : Nat} (hpre : pre.length = position)
    (h : offset + field.length ≤ mid.length) :
    setAt (pre ++ (mid ++ post)) (position + offset) field = pre ++ (setAt mid offset field ++ post) := by
  subst hpre
  unfold setAt
  rw [List.take_length_add_append, List.take_append_of_le_length (by omega), Nat.add_assoc, List.drop_length_add_append,
    List.drop_append_of_le_length h, List.append_assoc, List.append_assoc, List.append_assoc]

theorem take_drop_middle {pre mid post : List β} {position n : Nat} (hpre : pre.length = position)
    (h : offset + n ≤ mid.length) :
    ((pre ++ (mid ++ post)).drop (position + offset)).take n = (mid.drop offset).take n := by
  rw [← hpre, List.drop_length_add_append, List.drop_append_of_le_length (by omega),
    List.take_append_of_le_length (by rw [List.length_drop]; omega)]

/-- A field that is written over a copy is one of the copied bytes. -/
theorem copyTo_field (mem : Nat → β) (target : Nat) (h : offset + field.length ≤ bytes.length) :
    copyTo (copyTo mem target bytes) (target + offset) field = copyTo mem target (setAt bytes offset field) := by
  funext x
  have hlen := length_setAt h
  unfold copyTo
  by_cases hin : target + offset ≤ x ∧ x < target + offset + field.length
  · obtain ⟨k, rfl⟩ := Nat.exists_eq_add_of_le hin.1
    have hk : k < field.length := by omega
    have hset := getElem?_setAt_inside (Nat.le_of_add_right_le h) hk
    have hbyte := List.getElem?_eq_getElem hk
    rw [if_pos hin.1, if_pos (by omega), if_pos (by omega), Nat.add_sub_cancel_left, hbyte, Nat.add_assoc,
      Nat.add_sub_cancel_left, hset, hbyte]
    rfl
  · have hfield : (if target + offset ≤ x then (field[x - (target + offset)]?).getD (copyTo mem target bytes x) else
        copyTo mem target bytes x) = copyTo mem target bytes x := by
      split_ifs with hx
      · rw [List.getElem?_eq_none (by omega), Option.getD_none]
      · rfl
    unfold copyTo at hfield
    rw [hfield]
    by_cases hx : target ≤ x
    · rw [if_pos hx, if_pos hx, getElem?_setAt_outside h (by omega)]
    · rw [if_neg hx, if_neg hx]

theorem copyTo_inj (hlen : bs.length = cs.length) (h : ∀ mem : Nat → β, copyTo mem target bs = copyTo mem target cs) :
    bs = cs := by
  refine List.ext_getElem hlen fun k hk hk' => ?_
  have hbyte := congrFun (h fun _ => bs[k]) (target + k)
  unfold copyTo at hbyte
  rw [if_pos (Nat.le_add_right ..), if_pos (Nat.le_add_right ..), Nat.add_sub_cancel_left,
    List.getElem?_eq_getElem hk, List.getElem?_eq_getElem hk'] at hbyte
  exact hbyte

end Copies

/-! ## Numbers -/

/-- A little-endian number with a sign. -/
def leInt (bs : List UInt8) : Int := Int.bmod (leNat bs) (256 ^ bs.length)

/-- The numbers with a sign that `n` bytes can hold. -/
def FitsBytes (n : Nat) (z : Int) : Prop := -(256 ^ n : Int) ≤ 2 * z ∧ 2 * z < 256 ^ n

theorem getElem?_leBytes {n k : Nat} (v : Nat) (hk : k < n) : (leBytes n v)[k]? = some (UInt8.ofNat (v / 256 ^ k)) := by
  induction n generalizing v k with
  | zero => cases hk
  | succ n ih =>
    cases k with
    | zero => simp [leBytes]
    | succ k =>
      rw [leBytes, List.getElem?_cons_succ, ih _ (Nat.lt_of_succ_lt_succ hk), Nat.div_div_eq_div_mul, ← pow_succ']

theorem bmod_eq_of_fits {n : Nat} {z : Int} (hz : FitsBytes n z) : Int.bmod z (256 ^ n) = z := by
  obtain ⟨hlo, hhi⟩ := hz
  have hcast : ((256 ^ n : Nat) : Int) = 256 ^ n := by norm_cast
  exact Int.bmod_eq_of_le_mul_two (by rw [hcast]; omega) (by rw [hcast]; omega)

/-- The low bytes of a number that fits into them are the number. -/
theorem leInt_leBytes {n : Nat} (hn : n ≤ 8) {z : Int} (hz : FitsBytes n z) {v : UInt64} (hv : v = UInt64.ofInt z) :
    leInt (leBytes n v.toNat) = z := by
  have hdvd : ((256 ^ n : Nat) : Int) ∣ 2 ^ 64 := by
    have : (256 : Nat) ^ n ∣ 256 ^ 8 := pow_dvd_pow 256 hn
    exact_mod_cast this
  have hmod : ((v.toNat : Int)) % (256 ^ n : Nat) = z % (256 ^ n : Nat) := by
    have hv' : (v.toNat : Int) = z % 2 ^ 64 := by
      rw [hv, UInt64.ofInt, UInt64.toNat_ofNat']
      omega
    rw [hv']
    exact Int.emod_emod_of_dvd z hdvd
  rw [leInt, length_leBytes, leNat_leBytes, Int.natCast_emod, Int.emod_bmod, ← Int.emod_bmod, hmod, Int.emod_bmod,
    bmod_eq_of_fits hz]

end Egalito.Lib
