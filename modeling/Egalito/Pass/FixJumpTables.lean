import Egalito.Lib.Memory
import Egalito.Pass.JumpTablePass
import Mathlib
/-!
# Reading and writing jump tables

`makeChildren` of `pass/jumptablepass.cpp` reads the slots of a table, and
`pass/fixjumptables.cpp` writes them again when the code has moved. Both go by
the scale. A slot holds the distance of the target from a base.
-/

open Egalito.Lib Egalito.Pass.JumpTablePass

namespace Egalito.Pass.FixJumpTables

variable {χ : Type} (search : Search χ)

abbrev Memory := BitVec 64 → BitVec 8

/-- The bytes of the section of a table, moved by `shift`. -/
def sectionBytes (d : Nat) (shift : UInt64) : Memory := fun a => (search.byte d (UInt64.ofBitVec a - shift)).toBitVec

/-- The value in a slot: `scale` bytes, with a sign or without. -/
def slotValue (d : JumpTableDescriptor) (mem : Memory) (slot : UInt64) : Int :=
  if d.signedOrZero = 1 then (readWord d.scale mem slot.toBitVec).toInt
  else ((readWord d.scale mem slot.toBitVec).toNat : Int)

/-- Where the section, the code and the target base of a table are. -/
structure Layout (χ : Type) where
  chunk : χ → UInt64
  targetBase : UInt64
  shift : UInt64

/-- One entry in `FixJumpTablesPass`. -/
def setSlot (scale : Nat) (layout : Layout χ) (mem : Memory) (entry : JumpTableEntry χ) : Memory :=
  let slot := entry.address + layout.shift
  let target := layout.chunk entry.target - layout.targetBase
  match scale with
  | 4 => writeWord mem slot.toBitVec (target.toBitVec.setWidth (8 * 4))
  | 2 => writeWord mem slot.toBitVec (target.toBitVec.setWidth (8 * 2))
  | 1 => writeWord mem slot.toBitVec (target.toBitVec.setWidth (8 * 1))
  | _ => mem

def fixJumpTable (layout : Layout χ) (t : JumpTable χ) : Memory :=
  t.children.foldl (setSlot (search.descriptor t.descriptor).scale layout) (sectionBytes search t.descriptor layout.shift)

/-! ## What the entries should be -/

/-- Where the chunks start. The one that is found at an address begins there or, an instruction, less than 256 bytes in
front of it. -/
structure Code where
  start : χ → UInt64
  inside : ∀ a c, search.findInnermost a = some c → ∃ k < 256, a = start c + UInt64.ofNat k

/-- A difference that a slot can hold. -/
def Fits (d : JumpTableDescriptor) (difference : UInt64) : Prop := ∃ z : Int, UInt64.ofInt z = difference ∧
  if d.signedOrZero = 1 then -2 ^ (8 * d.scale - 1) ≤ z ∧ z < 2 ^ (8 * d.scale - 1) else 0 ≤ z ∧ z < 2 ^ (8 * d.scale)

variable {search}

/-- The address that the slot of an entry stands for. -/
def slotTarget (search : Search χ) (d : Nat) (slot : UInt64) : UInt64 :=
  (search.descriptor d).targetBase + UInt64.ofInt (slotValue (search.descriptor d) (sectionBytes search d 0) slot)

/-- The entries of a table refer to what its slots stand for, and are written so in all layouts. -/
structure Faithful (code : Code search) (t : JumpTable χ) : Prop where
  decodes : ∀ e ∈ t.children, code.start e.target = slotTarget search t.descriptor e.address
  encodes : ∀ layout, ∀ e ∈ t.children,
    Fits (search.descriptor t.descriptor) (layout.chunk e.target - layout.targetBase) →
    layout.targetBase + UInt64.ofInt (slotValue (search.descriptor t.descriptor) (fixJumpTable search layout t)
      (e.address + layout.shift)) = layout.chunk e.target

/-- The slot has a size that is written, a value that is read in full, and stands for the start of a chunk. -/
def Handled (code : Code search) (d : Nat) (slot : UInt64) : Prop :=
  (search.descriptor d).scale ≠ 8 ∧
  ((search.descriptor d).signedOrZero = 0 → slotValue (search.descriptor d) (sectionBytes search d 0) slot < 256) ∧
  ∃ c, search.findInnermost (slotTarget search d slot) = some c ∧ code.start c = slotTarget search d slot

/-! ## Reading -/

variable {d n : Nat} {a : UInt64} {code : Code search}

theorem unsignedAt_succ (d : Nat) (a : UInt64) (n : Nat) :
    unsignedAt search d a (n + 1) = (search.byte d a).toNat + 256 * unsignedAt search d (a + 1) n := by
  have hnext : ∀ k, a + UInt64.ofNat (k + 1) = a + 1 + UInt64.ofNat k := by
    intro k
    rw [Nat.add_comm k 1, UInt64.ofNat_add, ← UInt64.add_assoc]
    rfl
  have hzero : a + UInt64.ofNat 0 = a := UInt64.add_zero a
  have hrest : ((List.range n).map fun k => (search.byte d (a + UInt64.ofNat (k + 1))).toNat * 256 ^ (k + 1)).sum =
      256 * ((List.range n).map fun k => (search.byte d (a + 1 + UInt64.ofNat k)).toNat * 256 ^ k).sum := by
    rw [← List.sum_map_mul_left]
    refine congrArg List.sum (List.map_congr_left fun k _ => ?_)
    rw [hnext]
    ring
  unfold unsignedAt
  rw [List.range_succ_eq_map, List.map_cons, List.sum_cons, List.map_map, hzero, pow_zero, Nat.mul_one, Nat.cast_add]
  refine congrArg _ ((congrArg Nat.cast hrest).trans ?_)
  push_cast
  rfl

theorem unsignedAt_eq (d : Nat) (a : UInt64) (n : Nat) :
    unsignedAt search d a n = ((readWord n (sectionBytes search d 0) a.toBitVec).toNat : Int) := by
  induction n generalizing a with
  | zero => rfl
  | succ n ih =>
    have hbyte : (sectionBytes search d 0 a.toBitVec).toNat = (search.byte d a).toNat := by
      show (search.byte d (a - 0)).toNat = _
      rw [UInt64.sub_zero]
    have hword : (readWord (n + 1) (sectionBytes search d 0) a.toBitVec).toNat =
        (readWord n (sectionBytes search d 0) (a + 1).toBitVec).toNat * 2 ^ 8 + (search.byte d a).toNat := by
      rw [← hbyte]
      refine (BitVec.toNat_append _ _).trans ?_
      rw [← Nat.shiftLeft_add_eq_or_of_lt (BitVec.isLt _), Nat.shiftLeft_eq]
      rfl
    rw [unsignedAt_succ, ih, hword]
    push_cast
    ring

/-- The first bytes are the number up to a multiple of their power. -/
theorem exists_unsignedAt (d : Nat) (a : UInt64) (m k : Nat) :
    ∃ high : Nat, unsignedAt search d a (m + k) = unsignedAt search d a m + 256 ^ m * (high : Int) := by
  refine ⟨((List.range k).map fun j => (search.byte d (a + UInt64.ofNat (m + j))).toNat * 256 ^ j).sum, ?_⟩
  have hhigh : ((List.range k).map fun j => (search.byte d (a + UInt64.ofNat (m + j))).toNat * 256 ^ (m + j)).sum =
      256 ^ m * ((List.range k).map fun j => (search.byte d (a + UInt64.ofNat (m + j))).toNat * 256 ^ j).sum := by
    rw [← List.sum_map_mul_left]
    refine congrArg List.sum (List.map_congr_left fun j _ => ?_)
    ring
  unfold unsignedAt
  rw [List.range_add, List.map_append, List.sum_append, List.map_map, Nat.cast_add]
  refine congrArg _ ((congrArg Nat.cast hhigh).trans ?_)
  push_cast
  rfl

theorem unsignedAt_bounds (d : Nat) (a : UInt64) (n : Nat) :
    0 ≤ unsignedAt search d a n ∧ unsignedAt search d a n < 2 ^ (8 * n) := by
  rw [unsignedAt_eq]
  exact ⟨Int.natCast_nonneg _, by exact_mod_cast BitVec.isLt _⟩

theorem ofInt_eq_iff {x y : Int} : UInt64.ofInt x = UInt64.ofInt y ↔ x % 2 ^ 64 = y % 2 ^ 64 := by
  have htoNat : ∀ z : Int, ((UInt64.ofInt z).toNat : Int) = z % 2 ^ 64 := by
    intro z
    rw [UInt64.ofInt, UInt64.toNat_ofNat']
    omega
  rw [← UInt64.toNat_inj, ← Int.natCast_inj, htoNat, htoNat]

section Values

variable (hscale : (search.descriptor d).scale = 1 ∨ (search.descriptor d).scale = 2 ∨ (search.descriptor d).scale = 4)

include hscale in
/-- Entries with a sign are read as what the slots stand for. -/
theorem target_signed (hsign : (search.descriptor d).signedOrZero = 1) : target search d a = slotTarget search d a := by
  have hne : (1 : Int) ≠ 0 := by decide
  unfold target slotTarget value slotValue
  simp only [hsign, if_true, if_neg hne, BitVec.toInt_eq_toNat_bmod, ← unsignedAt_eq]
  rcases hscale with h | h | h <;> simp only [h, Nat.reduceMul]

/-- Entries without a sign are read as their first byte. -/
theorem target_unsigned (hsign : (search.descriptor d).signedOrZero = 0) :
    target search d a = (search.descriptor d).targetBase + UInt64.ofInt (unsignedAt search d a 1) := by
  have hne : (0 : Int) ≠ 1 := by decide
  obtain ⟨hge, hlt⟩ : 0 ≤ unsignedAt search d a 1 ∧ _ := unsignedAt_bounds d a 1
  unfold target value
  simp only [hsign, if_true, if_neg hne]
  rw [Int.emod_eq_of_lt hge (by omega)]

theorem slotValue_unsigned (hsign : (search.descriptor d).signedOrZero = 0) :
    slotValue (search.descriptor d) (sectionBytes search d 0) a = unsignedAt search d a (search.descriptor d).scale := by
  have hne : (0 : Int) ≠ 1 := by decide
  rw [slotValue, hsign, if_neg hne, unsignedAt_eq]

include hscale in
/-- What is read of an entry without a sign is right exactly when the entry is a single byte; it is never right up to
some bytes less than that. -/
theorem target_unsigned_iff (hsign : (search.descriptor d).signedOrZero = 0) {k : Nat} (hk : k < 256) :
    target search d a = slotTarget search d a + UInt64.ofNat k ↔
      k = 0 ∧ slotValue (search.descriptor d) (sectionBytes search d 0) a < 256 := by
  obtain ⟨high, hhigh⟩ : ∃ high : Nat, unsignedAt search d a _ = _ :=
    exists_unsignedAt d a 1 ((search.descriptor d).scale - 1)
  have hlow : 0 ≤ unsignedAt search d a 1 ∧ _ := unsignedAt_bounds d a 1
  have hall : 0 ≤ unsignedAt search d a (search.descriptor d).scale ∧ _ := unsignedAt_bounds d a _
  have hle : (2 : Int) ^ (8 * (search.descriptor d).scale) ≤ 2 ^ 32 := by
    rcases hscale with h | h | h <;> rw [h] <;> decide
  rw [show 1 + ((search.descriptor d).scale - 1) = (search.descriptor d).scale by omega] at hhigh
  have hofNat : UInt64.ofNat k = UInt64.ofInt k := by
    refine UInt64.toNat_inj.1 ?_
    rw [UInt64.ofInt, UInt64.toNat_ofNat', UInt64.toNat_ofNat']
    omega
  rw [target_unsigned hsign, slotTarget, slotValue_unsigned hsign, hofNat, UInt64.add_assoc, UInt64.add_right_inj,
    ← UInt64.ofInt_add, ofInt_eq_iff]
  omega

end Values

/-! ## Writing -/

section Writing

variable {layout : Layout χ} {mem : Memory} {e : JumpTableEntry χ} {scale : Nat}

theorem setSlot_eq (hscale : scale = 1 ∨ scale = 2 ∨ scale = 4) (layout : Layout χ) (mem : Memory) (e : JumpTableEntry χ) :
    setSlot scale layout mem e = writeWord mem (e.address + layout.shift).toBitVec
      ((layout.chunk e.target - layout.targetBase).toBitVec.setWidth (8 * scale)) := by
  rcases hscale with rfl | rfl | rfl <;> rfl

/-- Of slots that lie apart each holds what is written for its entry. -/
theorem readWord_foldl (hscale : scale = 1 ∨ scale = 2 ∨ scale = 4) {l : List (JumpTableEntry χ)}
    (hapart : l.Pairwise fun e e' =>
      Apart scale scale (e'.address + layout.shift).toBitVec (e.address + layout.shift).toBitVec) :
    ∀ e ∈ l, readWord scale (l.foldl (setSlot scale layout) mem) (e.address + layout.shift).toBitVec =
      (layout.chunk e.target - layout.targetBase).toBitVec.setWidth (8 * scale) := by
  have hframe : ∀ (l : List (JumpTableEntry χ)) (mem : Memory) (b : BitVec 64),
      (∀ e' ∈ l, Apart scale scale (e'.address + layout.shift).toBitVec b) →
        readWord scale (l.foldl (setSlot scale layout) mem) b = readWord scale mem b := by
    intro l
    induction l with
    | nil => exact fun _ _ _ => rfl
    | cons e' l ih =>
      intro mem b hb
      rw [List.forall_mem_cons] at hb
      rw [List.foldl_cons, ih _ _ hb.2, setSlot_eq hscale, readWord_writeWord_of_apart hb.1]
  induction l generalizing mem with
  | nil => exact fun e he => nomatch he
  | cons e l ih =>
    rw [List.pairwise_cons] at hapart
    rw [List.forall_mem_cons]
    refine ⟨?_, ih hapart.2⟩
    rw [List.foldl_cons, hframe l _ _ hapart.1, setSlot_eq hscale, readWord_writeWord (by omega)]

/-- The slots of a table lie apart. -/
theorem slots_apart (hpos : 0 < scale) (hscale : scale ≤ 8) (hn : n < 2 ^ 31) (address shift : UInt64) :
    (List.range n).Pairwise fun i j => Apart scale scale
      (address + UInt64.ofNat (j * scale) + shift).toBitVec (address + UInt64.ofNat (i * scale) + shift).toBitVec := by
  refine List.Pairwise.imp_of_mem (fun {i j} _ hj hij => ?_) List.pairwise_lt_range
  rw [List.mem_range] at hj
  have hstep : i * scale + scale ≤ j * scale := by
    rw [← Nat.succ_mul]
    exact Nat.mul_le_mul_right _ hij
  have hlast : j * scale ≤ 2 ^ 31 * 8 := Nat.mul_le_mul (by omega) hscale
  have hdiff : address + UInt64.ofNat (i * scale) + shift - (address + UInt64.ofNat (j * scale) + shift) =
      UInt64.ofNat (i * scale) - UInt64.ofNat (j * scale) := by grind
  have hdist : (UInt64.ofNat (i * scale) - UInt64.ofNat (j * scale)).toNat = 2 ^ 64 - (j * scale - i * scale) := by
    rw [UInt64.toNat_sub, UInt64.toNat_ofNat', UInt64.toNat_ofNat']
    omega
  exact apart_of_distance ((congrArg UInt64.toNat hdiff).trans hdist) (by omega) (by omega)

/-- A difference that fits is read back. -/
theorem slotValue_written {desc : JumpTableDescriptor}
    (hscale : desc.scale = 1 ∨ desc.scale = 2 ∨ desc.scale = 4) {difference slot : UInt64} (hfits : Fits desc difference)
    (hword : readWord desc.scale mem slot.toBitVec = difference.toBitVec.setWidth (8 * desc.scale)) :
    UInt64.ofInt (slotValue desc mem slot) = difference := by
  obtain ⟨z, rfl, hz⟩ := hfits
  have htoNat : ((UInt64.ofInt z).toBitVec.toNat : Int) = z % 2 ^ 64 := by
    show ((UInt64.ofInt z).toNat : Int) = _
    rw [UInt64.ofInt, UInt64.toNat_ofNat']
    omega
  congr 1
  unfold slotValue
  rw [hword, BitVec.toInt_eq_toNat_bmod, BitVec.toNat_setWidth, Int.bmod]
  push_cast
  rw [htoNat]
  rcases hscale with h | h | h <;> rw [h] at hz ⊢ <;> split_ifs at hz ⊢ <;> omega

end Writing

/-! ## Tables -/

/-- The chunk of an entry is what is found where its slot is read to lead. -/
theorem makeEntries_found (d i left : Nat) :
    ∀ e ∈ (makeEntries search d i left).1, search.findInnermost (target search d e.address) = some e.target := by
  induction left generalizing i with
  | zero => exact fun e he => absurd he List.not_mem_nil
  | succ left ih =>
    unfold makeEntries
    cases hinner : inner search d i with
    | none => exact fun e he => absurd he List.not_mem_nil
    | some chunk =>
      rw [List.forall_mem_cons]
      exact ⟨hinner, ih (i + 1)⟩

theorem fits_eight {desc : JumpTableDescriptor} (h : desc.scale = 8) (difference : UInt64) : Fits desc difference := by
  have hlt := difference.toNat_lt
  have hofInt : ∀ z : Int, z % 2 ^ 64 = difference.toNat → UInt64.ofInt z = difference := by
    intro z hz
    refine UInt64.toNat_inj.1 ?_
    rw [UInt64.ofInt, UInt64.toNat_ofNat', hz]
    omega
  unfold Fits
  rw [h]
  split_ifs with hsign
  · refine ⟨Int.bmod difference.toNat (2 ^ 64), hofInt _ ?_, ?_⟩
    · exact Int.bmod_emod.trans (Int.emod_eq_of_lt (Int.natCast_nonneg _) (by omega))
    · have hge := Int.le_bmod (x := difference.toNat) (m := 2 ^ 64) (by decide)
      have hlt := Int.bmod_lt (x := difference.toNat) (m := 2 ^ 64) (by decide)
      omega
  · exact ⟨difference.toNat, hofInt _ (Int.emod_eq_of_lt (Int.natCast_nonneg _) (by omega)), by omega⟩

/-- Slots of eight bytes are not written. -/
theorem fixJumpTable_eight {t : JumpTable χ} (h : (search.descriptor t.descriptor).scale = 8) (layout : Layout χ) :
    fixJumpTable search layout t = sectionBytes search t.descriptor layout.shift := by
  unfold fixJumpTable
  rw [h]
  exact List.foldl_fixed _

theorem two_le_scale : 2 ≤ 8 := by decide

/-- One two-byte entry of value 0x0100; instructions of one byte. -/
def wordTable : Search UInt64 where
  descriptor _ := ⟨0, 0x2000, 0x1000, 2, 0, Nat.two_pos, two_le_scale⟩
  bound _ := 0
  byte _ a := if a = 0x2001 then 1 else 0
  findInnermost a := some a
  fits _ := .inr (by decide)

def wordCode : Code wordTable where
  start a := a
  inside a c h := ⟨0, by decide, by
    obtain rfl := Option.some.inj h
    exact (UInt64.add_zero _).symm⟩

/-- The same bytes as a table of signed entries. -/
def signedTable : Search UInt64 := { wordTable with descriptor := fun _ => ⟨0, 0x2000, 0x1000, 2, 1, Nat.two_pos, two_le_scale⟩ }

def signedCode : Code signedTable := ⟨wordCode.start, wordCode.inside⟩

end Egalito.Pass.FixJumpTables
