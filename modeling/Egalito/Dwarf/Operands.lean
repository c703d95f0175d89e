import Egalito.Dwarf.Leb128
/-!
# Operands as the standard reads them

A LEB128 operand ends with the first byte without the high bit, and its value is
that of its groups, however many there are. The readers of the cursor agree with
that where the groups fit the `int` they are shifted in.
-/

open Egalito.Lib

namespace Egalito.Dwarf

/-- A step that moved the cursor, and what follows from there. -/
theorem run_bind_eq_some {α β : Type} {x : CursorM α} {k : α → CursorM β} {c : DwarfCursor} {r : β × DwarfCursor} :
    (x >>= k).run c = some r ↔ ∃ a c', x.run c = some (a, c') ∧ (k a).run c' = some r := by
  rw [StateT.run_bind, Option.bind_eq_bind, Option.bind_eq_some_iff]
  exact ⟨fun ⟨⟨a, c'⟩, hx, hk⟩ => ⟨a, c', hx, hk⟩, fun ⟨a, c', hx, hk⟩ => ⟨(a, c'), hx, hk⟩⟩

/-- A step that does not move it. -/
theorem run_liftM_eq_some {α : Type} {x : Option α} {c c' : DwarfCursor} {a : α} :
    StateT.run (m := Option) (liftM x) c = some (a, c') ↔ x = some a ∧ c' = c := by
  cases x with
  | none => exact ⟨nofun, nofun⟩
  | some b =>
    constructor
    · intro h
      cases h
      exact ⟨rfl, rfl⟩
    · rintro ⟨h, rfl⟩
      cases h
      rfl

section Readers

variable (f : EhFrame)

/-- The groups of an operand. -/
def nextGroups : Nat → CursorM (List Nat)
  | 0 => failure
  | rounds + 1 => do
    let byte ← next f 1
    if byte &&& 0x80 ≠ 0 then return (byte &&& 0x7f).toNat :: (← nextGroups rounds)
    else return [(byte &&& 0x7f).toNat]

/-- All groups that the section can hold. -/
def operandGroups : CursorM (List Nat) := nextGroups f (f.bytes.length + 1)

/-- An unsigned operand; it has to fit an address. -/
def standardUleb128 : CursorM (BitVec 64) := do
  let gs ← operandGroups f
  if groupValue gs < 2 ^ 64 then return BitVec.ofNat 64 (groupValue gs) else failure

/-- A signed operand. -/
def standardSleb128 : CursorM (BitVec 64) := do
  let gs ← operandGroups f
  if -2 ^ 63 ≤ groupInt gs ∧ groupInt gs < 2 ^ 63 then return BitVec.ofInt 64 (groupInt gs) else failure

/-! ## When the cursor reads the same -/

/-- The unsigned operand here is below 2^31, or one of the eight largest. -/
def UlebOk (c : DwarfCursor) : Prop :=
  ∀ gs c', (operandGroups f).run c = some (gs, c') → groupValue gs < 2 ^ 31 ∨ 2 ^ 64 - 8 ≤ groupValue gs

/-- The signed operand here has 32 bits, and a negative one at most five bytes. -/
def SlebOk (c : DwarfCursor) : Prop :=
  ∀ gs c', (operandGroups f).run c = some (gs, c') →
    -2 ^ 31 ≤ groupInt gs ∧ groupInt gs < 2 ^ 31 ∧ (groupInt gs < 0 → gs.length ≤ 5)

end Readers

theorem joined_eq_zero {shift : Nat} {gs : List Nat} (h : groupValue gs = 0) : joined shift gs = 0 := by
  induction gs generalizing shift with
  | nil => rfl
  | cons g gs ih =>
    rw [groupValue] at h
    rw [joined, ih (by omega), show g = 0 by omega]
    simp

theorem joined_congr {shift : Nat} {gs hs : List Nat} (hgs : ∀ g ∈ gs, g < 128) (hhs : ∀ h ∈ hs, h < 128)
    (h : groupValue gs = groupValue hs) : joined shift gs = joined shift hs := by
  induction gs generalizing hs shift with
  | nil => rw [joined_eq_zero rfl, joined_eq_zero h.symm]
  | cons a gs ih =>
    cases hs with
    | nil => rw [joined_eq_zero h, joined_eq_zero rfl]
    | cons b hs =>
      rw [List.forall_mem_cons] at hgs hhs
      simp only [groupValue] at h
      rw [joined, joined, ih hgs.2 hhs.2 (by omega), show a = b by omega]

/-- Padding does not change what the loop makes of an unsigned number. -/
theorem joined_of_value {gs : List Nat} (hlt : ∀ g ∈ gs, g < 128) (hfit : groupValue gs < 2 ^ 64)
    (h : groupValue gs < 2 ^ 31 ∨ 2 ^ 64 - 8 ≤ groupValue gs) :
    (joined 0 gs).signExtend 64 = BitVec.ofNat 64 (groupValue gs) := by
  have hnat : (BitVec.ofNat 64 (groupValue gs)).toNat = groupValue gs := by
    rw [BitVec.toNat_ofNat, Nat.mod_eq_of_lt hfit]
  have hvalue := (uleb128_value_iff (BitVec.ofNat 64 (groupValue gs))).2
  rw [hnat] at hvalue
  rw [joined_congr hlt (fun _ => lt_of_mem_sevens) (groupValue_sevens (groupValue gs)).symm]
  exact hvalue h

theorem and_mask_lt (byte : BitVec 64) : (byte &&& 0x7f).toNat < 128 := by
  rw [BitVec.toNat_and]
  exact lt_of_le_of_lt Nat.and_le_right (by decide)

/-- The sign bit of a byte is that of its group. -/
theorem sign_bit (byte : BitVec 64) : byte &&& 0x40 ≠ 0 ↔ 64 ≤ (byte &&& 0x7f).toNat := by
  have hmask : byte &&& 0x40 = byte &&& 0x7f &&& 0x40 := by
    rw [BitVec.and_assoc]
    rfl
  have hgroup : byte &&& 0x7f = BitVec.ofNat 64 (byte &&& 0x7f).toNat := by simp
  rw [hmask, hgroup, (high_bit ⟨_, and_mask_lt byte⟩).2.2]
  simp

section Loop

variable {f : EhFrame} {c c' : DwarfCursor} {gs : List Nat}

/-- The loop of the cursor reads the same bytes. -/
theorem nextLeb128_groups {rounds : Nat} (h : (nextGroups f rounds).run c = some (gs, c')) (result : BitVec 64)
    (shift : Nat) : gs ≠ [] ∧ (∀ g ∈ gs, g < 128) ∧ ∃ byte, gs.getLastD 0 = (byte &&& 0x7f).toNat ∧
      (nextLeb128 f rounds result shift).run c =
        some ((result ||| (joined shift gs).signExtend 64, shift + 7 * gs.length, byte), c') := by
  induction rounds generalizing c gs result shift with
  | zero => cases h
  | succ rounds ih =>
    rw [nextGroups, run_bind_eq_some] at h
    obtain ⟨byte, c₁, hbyte, h⟩ := h
    rw [nextLeb128, StateT.run_bind, hbyte]
    simp only [Option.bind_eq_bind, Option.bind_some]
    have hpart : leb128Part byte shift = (BitVec.ofNat 32 (byte &&& 0x7f).toNat <<< (shift % 32)).signExtend 64 := by
      rw [leb128Part, BitVec.ofNat_toNat]
    by_cases hhigh : byte &&& 0x80 ≠ 0
    · rw [if_pos hhigh, run_bind_eq_some] at h
      obtain ⟨rest, c₂, hrest, h⟩ := h
      cases h
      obtain ⟨hne, hlt, last, hlast, hloop⟩ := ih hrest (result ||| leb128Part byte shift) (shift + 7)
      refine ⟨List.cons_ne_nil _ _, List.forall_mem_cons.2 ⟨and_mask_lt byte, hlt⟩, last, ?_, ?_⟩
      · rw [List.getLastD_cons, ← hlast]
        cases rest with
        | nil => exact absurd rfl hne
        | cons g gs => rfl
      · rw [if_pos hhigh, hloop, hpart, BitVec.or_assoc, ← BitVec.signExtend_or, List.length_cons]
        have hlength : shift + 7 + 7 * rest.length = shift + 7 * (rest.length + 1) := by omega
        rw [hlength]
        rfl
    · rw [if_neg hhigh] at h ⊢
      cases h
      refine ⟨List.cons_ne_nil _ _, by simpa using and_mask_lt byte, byte, rfl, ?_⟩
      simp [hpart, joined]

theorem standardUleb128_groups {v : BitVec 64} (h : (standardUleb128 f).run c = some (v, c')) :
    ∃ gs, (operandGroups f).run c = some (gs, c') ∧ groupValue gs = v.toNat := by
  rw [standardUleb128, run_bind_eq_some] at h
  obtain ⟨gs, c₁, hgs, h⟩ := h
  by_cases hfit : groupValue gs < 2 ^ 64
  · rw [if_pos hfit] at h
    cases h
    exact ⟨gs, hgs, by rw [BitVec.toNat_ofNat, Nat.mod_eq_of_lt hfit]⟩
  · rw [if_neg hfit] at h
    cases h

/-- An unsigned operand in the range is read as it stands. -/
theorem nextUleb128_of_standard {v : BitVec 64} (hok : UlebOk f c) (h : (standardUleb128 f).run c = some (v, c')) :
    (nextUleb128 f).run c = some (v, c') := by
  obtain ⟨gs, hgs, hvalue⟩ := standardUleb128_groups h
  obtain ⟨hne, hlt, byte, hlast, hloop⟩ := nextLeb128_groups hgs 0 0
  have hzero : (0 : BitVec 64) ||| (joined 0 gs).signExtend 64 = _ := BitVec.zero_or
  have hv : BitVec.ofNat 64 (groupValue gs) = v := by rw [hvalue, BitVec.ofNat_toNat, BitVec.setWidth_eq]
  rw [nextUleb128, StateT.run_bind, hloop, hzero,
    joined_of_value hlt (hvalue ▸ v.isLt) (hok gs c' hgs), hv]
  rfl

/-- So is a signed one. -/
theorem nextSleb128_of_standard {v : BitVec 64} (hok : SlebOk f c) (h : (standardSleb128 f).run c = some (v, c')) :
    (nextSleb128 f).run c = some (v, c') := by
  rw [standardSleb128, run_bind_eq_some] at h
  obtain ⟨gs, c₁, hgs, h⟩ := h
  obtain ⟨hne, hlt, byte, hlast, hloop⟩ := nextLeb128_groups hgs 0 0
  obtain ⟨hlow, hhigh, hlen⟩ := hok gs c₁ hgs
  rw [if_pos ⟨by omega, by omega⟩] at h
  cases h
  have hzero : (0 : BitVec 64) ||| (joined 0 gs).signExtend 64 = _ := BitVec.zero_or
  rw [nextSleb128, StateT.run_bind, hloop, hzero, Nat.zero_add]
  simp only [Option.bind_eq_bind, Option.bind_some, sign_bit, ← hlast]
  have hint : (BitVec.ofInt 64 (groupInt gs)).toInt = groupInt gs := by
    rw [BitVec.toInt_ofInt, Int.bmod_eq_of_le (by omega) (by omega)]
  by_cases hneg : groupInt gs < 0
  · have hlen := hlen hneg
    have hsign : 64 ≤ gs.getLastD 0 := by
      by_contra hpos
      rw [groupInt, if_neg hpos] at hneg
      omega
    obtain ⟨hvalue, hfit⟩ := groupInt_fits hne hlt hneg
    have hmod : (groupInt gs % 128 ^ gs.length).toNat = groupValue gs := by
      have hlt' : (groupValue gs : Int) < 128 ^ gs.length := by exact_mod_cast groupValue_lt hlt
      rw [← Int.add_emod_right, ← hvalue, Int.emod_eq_of_lt (Int.natCast_nonneg _) hlt', Int.toNat_natCast]
    have hfill := or_signFill_of_neg (x := BitVec.ofInt 64 (groupInt gs)) (k := gs.length) (by omega) (by omega)
      (List.length_pos_of_ne_nil hne) hlen (by omega)
    rw [hint, hmod] at hfill
    rw [if_pos ⟨hsign, by omega⟩, joined_of_lt hlt (by omega), pow_zero, Nat.one_mul, ← hfill]
    rfl
  · have hsign : ¬64 ≤ gs.getLastD 0 := by
      intro hle
      have hlt' : (groupValue gs : Int) < 128 ^ gs.length := by exact_mod_cast groupValue_lt hlt
      rw [groupInt, if_pos hle] at hneg
      omega
    have hvalue : groupInt gs = groupValue gs := by rw [groupInt, if_neg hsign]
    rw [if_neg (fun h => hsign h.1), hvalue, BitVec.ofInt_natCast,
      joined_of_value hlt (by omega) (Or.inl (by omega))]
    rfl

end Loop

end Egalito.Dwarf
