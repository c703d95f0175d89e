import Egalito.Lib.BitField
/-!
# Immediates of AArch64 instructions

`instr/linked-aarch64.cpp`: for each mode the mask of the bits that are kept and
the bits of the immediate for a destination. What the immediate of an encoding
stands for is that of the architecture.
-/

open Egalito.Lib

namespace Egalito.LinkedAarch64

abbrev Address := BitVec 64

inductive Mode
  | adrp | adr | addimm | ldrimm | ldrh | ldrb | ldrsw | ldrsh | ldrsb | ldrlit | mov | movk | str | strh | strb
  | bl | b | bcond | cbz | cbnz | tbz | tbnz
deriving DecidableEq, Repr

/-- `AARCH64_modeInfo_t`; the arguments of `makeImm` are the destination, the source and the fixed bits. -/
structure ModeInfo where
  fixedMask : BitVec 32
  makeImm : Address → Address → BitVec 32 → BitVec 32

/-- The two parts of the immediate of ADRP and ADR. -/
def splitImm (imm : BitVec 32) : BitVec 32 := (imm &&& 0x3) <<< 29 ||| (imm &&& 0x1FFFFC) <<< 3

/-- An offset in the page, in units of `2 ^ scale` bytes. -/
def pageOffset (fixedMask : BitVec 32) (scale : BitVec 32 → Nat) : ModeInfo where
  fixedMask := fixedMask
  makeImm dest _ fixed :=
    let disp := dest &&& 0xFFF
    let imm := ((disp >>> scale fixed) <<< 10).setWidth 32
    imm &&& ~~~fixedMask

/-- A distance in instructions, at bit `shift`. -/
def branch (fixedMask : BitVec 32) (shift : Nat) : ModeInfo where
  fixedMask := fixedMask
  makeImm dest src _ :=
    let disp := dest - src
    let imm := (disp.sshiftRight 2).setWidth 32
    (imm <<< shift) &&& ~~~fixedMask

def AARCH64_ImInfo : Mode → ModeInfo
  | .adrp => ⟨0x9000001F, fun dest src _ =>
    let disp := dest - (src &&& ~~~0xFFF)
    splitImm ((disp.sshiftRight 12).setWidth 32)⟩
  | .adr => ⟨0x9F00001F, fun dest src _ =>
    let disp := dest - src
    splitImm (disp.setWidth 32)⟩
  | .addimm => pageOffset 0xFFC003FF fun _ => 0
  | .ldrimm => pageOffset 0xFFE003FF fun fixed => ((fixed &&& 0x00800000) >>> 21 ||| fixed >>> 30).toNat
  | .ldrh => pageOffset 0xFFE003FF fun _ => 1
  | .ldrb => pageOffset 0xFFE003FF fun _ => 0
  | .ldrsw => pageOffset 0xFFE003FF fun _ => 2
  | .ldrsh => pageOffset 0xFFE003FF fun _ => 1
  | .ldrsb => pageOffset 0xFFE003FF fun _ => 0
  | .ldrlit => ⟨0xFF00001F, fun dest src _ =>
    let disp := (dest - src) &&& 0x7FFFF
    let imm := ((disp >>> 2) <<< 5).setWidth 32
    imm &&& ~~~0xFF00001F⟩
  | .mov => ⟨0xFFE0001F, fun dest _ _ =>
    let disp := dest &&& 0xFFFF
    let imm := (disp <<< 5).setWidth 32
    imm &&& ~~~0xFFE0001F⟩
  | .movk => ⟨0xFFE0001F, fun dest _ fixed =>
    let hw := (fixed >>> 21) &&& 0x3
    let disp := (dest >>> (hw <<< 4).toNat) &&& 0xFFFF
    let imm := (disp <<< 5).setWidth 32
    imm &&& ~~~0xFFE0001F⟩
  | .str => pageOffset 0xFFE003FF fun fixed => (fixed >>> 30).toNat
  | .strh => pageOffset 0xFFE003FF fun _ => 1
  | .strb => pageOffset 0xFFE003FF fun _ => 0
  | .bl => branch 0xFC000000 0
  | .b => branch 0xFC000000 0
  | .bcond => branch 0xFF00001F 5
  | .cbz => branch 0xFF00001F 5
  | .cbnz => branch 0xFF00001F 5
  | .tbz => branch 0xFFF8001F 5
  | .tbnz => branch 0xFFF8001F 5

/-- `rebuild`, for an instruction with bytes `data` at `src`. -/
def rebuild (mode : Mode) (data : BitVec 32) (src dest : Address) : BitVec 32 :=
  let modeInfo := AARCH64_ImInfo mode
  let fixedBytes := data &&& modeInfo.fixedMask
  fixedBytes ||| modeInfo.makeImm dest src fixedBytes

/-! ## The architecture -/

/-- How an immediate is encoded. -/
inductive Kind
  | page | address | offset (scale : Nat) | relative (lsb width : Nat) | piece

/-- The bits of the immediate. -/
def Kind.immField : Kind → BitVec 32
  | page | address => fieldMask 32 29 2 ||| fieldMask 32 5 19
  | offset _ => fieldMask 32 10 12
  | relative lsb width => fieldMask 32 lsb width
  | piece => fieldMask 32 5 16

/-- The immediate of ADR and ADRP, immhi and immlo. -/
def imm21 (word : BitVec 32) : BitVec 21 := word.extractLsb' 5 19 ++ word.extractLsb' 29 2

/-- Where the 16 bits of a wide immediate belong. -/
def hw (word : BitVec 32) : Nat := (word.extractLsb' 21 2).toNat

def page (a : Address) : Address := a &&& ~~~0xFFF

/-- The immediate of an instruction at `src` stands for `dest`: its address, its page, its offset in the page or 16 bits
of it. -/
def Kind.Refers (kind : Kind) (word : BitVec 32) (src dest : Address) : Prop :=
  match kind with
  | page => LinkedAarch64.page src + BitVec.ofInt 64 (2 ^ 12 * (imm21 word).toInt) = LinkedAarch64.page dest
  | address => src + BitVec.ofInt 64 (imm21 word).toInt = dest
  | offset scale => (word.extractLsb' 10 12).toNat * 2 ^ scale = (dest &&& 0xFFF).toNat
  | relative lsb width => src + BitVec.ofInt 64 (2 ^ 2 * (word.extractLsb' lsb width).toInt) = dest
  | piece => word.extractLsb' 5 16 = (dest >>> (16 * hw word)).setWidth 16

instance (kind : Kind) (word : BitVec 32) (src dest : Address) : Decidable (kind.Refers word src dest) :=
  match kind with
  | .page => inferInstanceAs (Decidable (_ = LinkedAarch64.page dest))
  | .address => inferInstanceAs (Decidable (_ = dest))
  | .offset _ => inferInstanceAs (Decidable (_ = (dest &&& 0xFFF).toNat))
  | .relative _ _ => inferInstanceAs (Decidable (_ = dest))
  | .piece => inferInstanceAs (Decidable (_ = BitVec.setWidth 16 _))

/-- The size of a load or store: the bits 31 and 30, and bit 23 for 128-bit registers. -/
def accessBits (word : BitVec 32) : BitVec 3 := word.extractLsb' 23 1 ++ word.extractLsb' 30 2

def accessScale (word : BitVec 32) : Nat := (accessBits word).toNat

def Mode.kind (word : BitVec 32) : Mode → Kind
  | adrp => .page
  | adr => .address
  | addimm => .offset 0
  | ldrimm | str => .offset (accessScale word)
  | ldrh | ldrsh | strh => .offset 1
  | ldrb | ldrsb | strb => .offset 0
  | ldrsw => .offset 2
  | ldrlit | bcond | cbz | cbnz => .relative 5 19
  | mov | movk => .piece
  | bl | b => .relative 0 26
  | tbz | tbnz => .relative 5 14

/-- The encodings of the instructions: for loads and stores those with an unsigned offset. -/
def Mode.Encodes (word : BitVec 32) : Mode → Prop
  | adrp => word &&& 0x9F000000 = 0x90000000
  | adr => word &&& 0x9F000000 = 0x10000000
  | addimm => word &&& 0x7FC00000 = 0x11000000
  | ldrimm => word &&& 0xBFC00000 = 0xB9400000 ∨ word &&& 0x3FC00000 = 0x3D400000 ∨ word &&& 0xFFC00000 = 0x3DC00000
  | ldrh => word &&& 0xFFC00000 = 0x79400000
  | ldrb => word &&& 0xFFC00000 = 0x39400000
  | ldrsw => word &&& 0xFFC00000 = 0xB9800000
  | ldrsh => word &&& 0xFF800000 = 0x79800000
  | ldrsb => word &&& 0xFF800000 = 0x39800000
  | ldrlit => word &&& 0xBF000000 = 0x18000000 ∨ word &&& 0x3F000000 = 0x1C000000 ∧ word &&& 0xC0000000 ≠ 0xC0000000
  | mov => word &&& 0x7F800000 = 0x52800000
  | movk => word &&& 0x7F800000 = 0x72800000
  | str => word &&& 0xBFC00000 = 0xB9000000 ∨ word &&& 0x3FC00000 = 0x3D000000 ∨ word &&& 0xFFC00000 = 0x3D800000
  | strh => word &&& 0xFFC00000 = 0x79000000
  | strb => word &&& 0xFFC00000 = 0x39000000
  | bl => word &&& 0xFC000000 = 0x94000000
  | b => word &&& 0xFC000000 = 0x14000000
  | bcond => word &&& 0xFF000010 = 0x54000000
  | cbz => word &&& 0x7F000000 = 0x34000000
  | cbnz => word &&& 0x7F000000 = 0x35000000
  | tbz => word &&& 0x7F000000 = 0x36000000
  | tbnz => word &&& 0x7F000000 = 0x37000000

/-- The same instruction has an immediate for the destination. -/
def InRange (mode : Mode) (word : BitVec 32) (src dest : Address) : Prop := ∃ word',
  word' &&& ~~~(mode.kind word).immField = word &&& ~~~(mode.kind word).immField ∧ (mode.kind word).Refers word' src dest

/-- What `rebuild` gives is the instruction for the destination, and the original one for the original destination. -/
structure Rebuilt (mode : Mode) (word : BitVec 32) (src dest : Address) : Prop where
  refers : (mode.kind word).Refers (rebuild mode word src dest) src dest
  outside : rebuild mode word src dest &&& ~~~(mode.kind word).immField = word &&& ~~~(mode.kind word).immField
  original : (mode.kind word).Refers word src dest → rebuild mode word src dest = word

/-- The immediate has all bits that are computed for it. -/
def Handled (mode : Mode) (word : BitVec 32) (src dest : Address) : Prop :=
  match mode with
  | .ldrlit => 0 ≤ (dest - src).toInt ∧ (dest - src).toInt < 2 ^ 19
  | .mov => dest.setWidth 16 = (dest >>> (16 * hw word)).setWidth 16
  | .str =>
    if word.getLsbD 23 then word.getLsbD 21 = false ∧ dest &&& 0xFFF = 0
    else word.getLsbD 21 = ((dest &&& 0xFFF) >>> accessScale word).getLsbD 11
  | .ldrimm => word.getLsbD 21 = ((dest &&& 0xFFF) >>> accessScale word).getLsbD 11
  | .ldrh | .ldrsh | .strh => word.getLsbD 21 = false
  | .ldrsw => word.getLsbD 21 = false
  | .ldrb | .ldrsb | .strb => word.getLsbD 21 = dest.getLsbD 11
  | _ => True

/-! ## Fields -/

section Fields

variable {word word' : BitVec 32} {src dest : Address} {lsb width k i : Nat} {kind : Kind} {imm : BitVec 32}

theorem getLsbD_imm21 (hi : i < 21) :
    (imm21 word).getLsbD i = if i < 2 then word.getLsbD (29 + i) else word.getLsbD (3 + i) := by
  rw [imm21, BitVec.getLsbD_append]
  split_ifs with h
  · rw [BitVec.getLsbD_extractLsb', decide_eq_true h, Bool.true_and]
  · rw [BitVec.getLsbD_extractLsb', decide_eq_true (by omega), Bool.true_and, show 5 + (i - 2) = 3 + i by omega]

theorem getLsbD_splitImm (hi : i < 32) : (splitImm imm).getLsbD i =
    if 29 ≤ i ∧ i < 31 then imm.getLsbD (i - 29) else if 5 ≤ i ∧ i < 24 then imm.getLsbD (i - 3) else false := by
  rw [splitImm]
  interval_cases i <;> simp

theorem immField_split (hi : i < 32) : (Kind.immField .address).getLsbD i =
    (decide (29 ≤ i ∧ i < 31) || decide (5 ≤ i ∧ i < 24)) := by
  rw [Kind.immField, BitVec.getLsbD_or, getLsbD_fieldMask hi, getLsbD_fieldMask hi]
  simp

/-- The words of ADR and ADRP that agree outside of the immediate and in it. -/
theorem eq_of_imm21 (hout : word &&& ~~~Kind.immField .address = word' &&& ~~~Kind.immField .address)
    (hin : imm21 word = imm21 word') : word = word' := by
  refine BitVec.eq_of_getLsbD_eq fun i hi => ?_
  have hbit : ∀ j < 21, (imm21 word).getLsbD j = (imm21 word').getLsbD j := fun j _ => by rw [hin]
  by_cases hlow : 29 ≤ i ∧ i < 31
  · have := hbit (i - 29) (by omega)
    rwa [getLsbD_imm21 (by omega), getLsbD_imm21 (by omega), if_pos (by omega), if_pos (by omega),
      show 29 + (i - 29) = i by omega] at this
  · by_cases hhigh : 5 ≤ i ∧ i < 24
    · have := hbit (i - 3) (by omega)
      rwa [getLsbD_imm21 (by omega), getLsbD_imm21 (by omega), if_neg (by omega), if_neg (by omega),
        show 3 + (i - 3) = i by omega] at this
    · refine getLsbD_of_outside hout ?_
      rw [immField_split hi]
      simp [hlow, hhigh]

/-- The fields of the instructions have at most 26 bits. -/
theorem toInt_bounds {n : Nat} (hn : n ≤ 26) (z : BitVec n) : -2 ^ 26 ≤ z.toInt ∧ z.toInt < 2 ^ 26 := by
  have hpow : (2 : Int) ^ n ≤ 2 ^ 26 := pow_le_pow_right₀ (by decide) hn
  have hlow := BitVec.le_two_mul_toInt (x := z)
  have hhigh := BitVec.two_mul_toInt_lt (x := z)
  omega

theorem shift_bounds {x : Int} {k : Nat} (hk : k ≤ 12) (hx : -2 ^ 26 ≤ x ∧ x < 2 ^ 26) :
    -2 ^ (64 - 1) ≤ 2 ^ k * x ∧ 2 ^ k * x < 2 ^ (64 - 1) := by
  interval_cases k <;> omega

theorem toInt_eq_of_ofInt {n k : Nat} {z z' : BitVec n} (hn : n ≤ 26) (hk : k ≤ 12)
    (h : BitVec.ofInt 64 (2 ^ k * z.toInt) = BitVec.ofInt 64 (2 ^ k * z'.toInt)) : z = z' := by
  have hz := shift_bounds hk (toInt_bounds hn z)
  have hz' := shift_bounds hk (toInt_bounds hn z')
  have htoInt := congrArg BitVec.toInt h
  rw [BitVec.toInt_ofInt_eq_self (by decide) hz.1 hz.2, BitVec.toInt_ofInt_eq_self (by decide) hz'.1 hz'.2] at htoInt
  exact BitVec.eq_of_toInt_eq (Int.eq_of_mul_eq_mul_left (by positivity) htoInt)

theorem hw_congr (hout : word &&& ~~~Kind.immField .piece = word' &&& ~~~Kind.immField .piece) : hw word = hw word' := by
  have hbits : word.extractLsb' 21 2 = word'.extractLsb' 21 2 := by
    refine BitVec.eq_of_getLsbD_eq fun i hi => ?_
    rw [BitVec.getLsbD_extractLsb', BitVec.getLsbD_extractLsb', getLsbD_of_outside hout]
    rw [Kind.immField, getLsbD_fieldMask (by omega), decide_eq_false (p := 21 + i < 5 + 16) (by omega), Bool.and_false]
  rw [hw, hw, hbits]

/-- The fields of relative immediates are small. -/
def Kind.Small : Kind → Prop
  | relative _ width => width ≤ 26
  | _ => True

/-- An immediate is determined by what it stands for. -/
theorem refers_inj (hkind : kind.Small) (hout : word &&& ~~~kind.immField = word' &&& ~~~kind.immField)
    (hword : kind.Refers word src dest) (hword' : kind.Refers word' src dest) : word = word' := by
  cases kind with
  | page => exact eq_of_imm21 hout (toInt_eq_of_ofInt (by decide) (by decide) (add_left_cancel (hword.trans hword'.symm)))
  | address =>
    have heq : BitVec.ofInt 64 (imm21 word).toInt = BitVec.ofInt 64 (imm21 word').toInt :=
      add_left_cancel (hword.trans hword'.symm)
    refine eq_of_imm21 hout (toInt_eq_of_ofInt (k := 0) (by decide) (by decide) ?_)
    rw [pow_zero, one_mul, one_mul, heq]
  | offset scale =>
    refine eq_of_field hout (BitVec.eq_of_toNat_eq ?_)
    exact Nat.eq_of_mul_eq_mul_right (by positivity) (hword.trans hword'.symm)
  | relative lsb width =>
    exact eq_of_field hout (toInt_eq_of_ofInt hkind (by decide) (add_left_cancel (hword.trans hword'.symm)))
  | piece =>
    have hpiece : word.extractLsb' 5 16 = (dest >>> (16 * hw word)).setWidth 16 := hword
    rw [hw_congr hout] at hpiece
    exact eq_of_field hout (hpiece.trans hword'.symm)

end Fields

/-! ## What is rebuilt -/

section Rebuilding

variable {word word' mask v : BitVec 32} {src dest : Address} {lsb width s : Nat} {scale : BitVec 32 → Nat}

theorem setField_of_mask (hmask : mask = ~~~fieldMask 32 lsb width) (word v : BitVec 32) :
    word &&& mask ||| v <<< lsb &&& ~~~mask = setField word lsb width v := by
  rw [hmask, BitVec.not_not, setField]

theorem offset_field (href : (Kind.offset s).Refers word' src dest) :
    word'.extractLsb' 10 12 = ((dest &&& 0xFFF) >>> s).setWidth 12 := by
  have href : (word'.extractLsb' 10 12).toNat * 2 ^ s = (dest &&& 0xFFF).toNat := href
  refine BitVec.eq_of_toNat_eq ?_
  rw [BitVec.toNat_setWidth, BitVec.toNat_ushiftRight, Nat.shiftRight_eq_div_pow, ← href,
    Nat.mul_div_cancel _ (Nat.two_pow_pos s), Nat.mod_eq_of_lt (BitVec.isLt _)]

/-- The add that completes an ADRP. -/
theorem addimm_rebuild (hout : word' &&& ~~~Kind.immField (.offset 0) = word &&& ~~~Kind.immField (.offset 0))
    (href : (Kind.offset 0).Refers word' src dest) : rebuild .addimm word src dest = word' := by
  have hmask : (0xFFC003FF : BitVec 32) = ~~~fieldMask 32 10 12 := by decide
  have hset : rebuild .addimm word src dest = setField word 10 12 ((dest &&& 0xFFF).setWidth 32) := by
    rw [← setField_of_mask hmask, ← BitVec.setWidth_shiftLeft_of_le (by decide)]
    rfl
  rw [hset]
  refine eq_of_field (setField_outside.trans hout.symm) ?_
  rw [extractLsb'_setField (by decide), offset_field href, BitVec.setWidth_setWidth_of_le _ (by decide)]
  rfl

/-- The mask of the loads and stores keeps the top bit of the offset. -/
theorem pageOffset_rebuild (mode : Mode) (hmode : AARCH64_ImInfo mode = pageOffset 0xFFE003FF scale) (word : BitVec 32)
    (src dest : Address) : rebuild mode word src dest =
      setField word 10 11 (((dest &&& 0xFFF) >>> scale (word &&& 0xFFE003FF)).setWidth 32) := by
  have hmask : (0xFFE003FF : BitVec 32) = ~~~fieldMask 32 10 11 := by decide
  rw [← setField_of_mask hmask, ← BitVec.setWidth_shiftLeft_of_le (by decide), rebuild, hmode]
  rfl

theorem setField_offset_iff (hout : word' &&& ~~~Kind.immField (.offset s) = word &&& ~~~Kind.immField (.offset s))
    (href : (Kind.offset s).Refers word' src dest) :
    setField word 10 11 (((dest &&& 0xFFF) >>> s).setWidth 32) = word' ↔
      word.getLsbD 21 = ((dest &&& 0xFFF) >>> s).getLsbD 11 := by
  have hbit : ∀ j < 12, word'.getLsbD (10 + j) = ((dest &&& 0xFFF) >>> s).getLsbD j := by
    intro j hj
    have := congrArg (fun z => z.getLsbD j) (offset_field href)
    simpa only [BitVec.getLsbD_extractLsb', BitVec.getLsbD_setWidth, hj, decide_true, Bool.true_and] using this
  rw [← hbit 11 (by decide)]
  constructor
  · intro h
    have := congrArg (fun z => z.getLsbD 21) h
    simpa only [getLsbD_setField (show 21 < 32 by decide), if_neg (show ¬ (10 ≤ 21 ∧ 21 < 10 + 11) by decide)] using this
  · intro h
    refine BitVec.eq_of_getLsbD_eq fun i hi => ?_
    rw [getLsbD_setField hi]
    split_ifs with hin
    · rw [BitVec.getLsbD_setWidth, decide_eq_true (by omega), Bool.true_and, ← hbit _ (by omega),
        show 10 + (i - 10) = i by omega]
    · by_cases h21 : i = 21
      · subst h21
        exact h
      · refine getLsbD_of_outside hout.symm ?_
        rw [Kind.immField, getLsbD_fieldMask hi]
        simp only [Bool.and_eq_false_iff, decide_eq_false_iff_not]
        omega

/-- Loads and stores whose size is known. -/
theorem pageOffset_rebuild_iff {mode : Mode} (hmode : AARCH64_ImInfo mode = pageOffset 0xFFE003FF scale)
    (hscale : scale (word &&& 0xFFE003FF) = s)
    (hout : word' &&& ~~~Kind.immField (.offset s) = word &&& ~~~Kind.immField (.offset s))
    (href : (Kind.offset s).Refers word' src dest) :
    rebuild mode word src dest = word' ↔ word.getLsbD 21 = ((dest &&& 0xFFF) >>> s).getLsbD 11 := by
  rw [pageOffset_rebuild mode hmode, hscale, setField_offset_iff hout href]

/-- Stores of 128 bits, whose offset is not scaled. -/
theorem store_rebuild_iff (hscale : ((word &&& 0xFFE003FF) >>> 30).toNat = 0)
    (hout : word' &&& ~~~Kind.immField (.offset 4) = word &&& ~~~Kind.immField (.offset 4))
    (href : (Kind.offset 4).Refers word' src dest) :
    rebuild .str word src dest = word' ↔ word.getLsbD 21 = false ∧ dest &&& 0xFFF = 0 := by
  have himm : (word'.toNat >>> 10) % 2 ^ 12 * 2 ^ 4 = (dest &&& 0xFFF).toNat := href
  rw [pageOffset_rebuild .str rfl, hscale]
  constructor
  · intro h
    have hlow : ((dest &&& 0xFFF).setWidth 32).setWidth 11 = word'.extractLsb' 10 11 := by
      rw [← h, extractLsb'_setField (by decide)]
      rfl
    have hlow := congrArg BitVec.toNat hlow
    rw [BitVec.setWidth_setWidth_of_le _ (by decide), BitVec.toNat_setWidth, BitVec.extractLsb'_toNat] at hlow
    have hlt : (dest &&& 0xFFF).toNat < 2 ^ 12 := by
      rw [BitVec.toNat_and]
      exact Nat.lt_of_le_of_lt Nat.and_le_right (by decide)
    have hzero : dest &&& 0xFFF = 0 := by
      refine BitVec.eq_of_toNat_eq ?_
      show (dest &&& 0xFFF).toNat = 0
      omega
    have hv : (dest &&& 0xFFF) >>> 0 = (dest &&& 0xFFF) >>> 4 := by rw [hzero]; rfl
    rw [hv, setField_offset_iff hout href, hzero] at h
    exact ⟨h.trans (by decide), hzero⟩
  · rintro ⟨hbit, hzero⟩
    have hv : (dest &&& 0xFFF) >>> 0 = (dest &&& 0xFFF) >>> 4 := by rw [hzero]; rfl
    rw [hv, setField_offset_iff hout href, hzero, hbit]
    decide

/-- The distance to a literal is cut off at 19 bits. -/
theorem ldrlit_rebuild_iff
    (hout : word' &&& ~~~Kind.immField (.relative 5 19) = word &&& ~~~Kind.immField (.relative 5 19))
    (href : (Kind.relative 5 19).Refers word' src dest) :
    rebuild .ldrlit word src dest = word' ↔ 0 ≤ (dest - src).toInt ∧ (dest - src).toInt < 2 ^ 19 := by
  have hmask : (0xFF00001F : BitVec 32) = ~~~fieldMask 32 5 19 := by decide
  have hset : rebuild .ldrlit word src dest = setField word 5 19 ((((dest - src) &&& 0x7FFFF) >>> 2).setWidth 32) := by
    rw [← setField_of_mask hmask, ← BitVec.setWidth_shiftLeft_of_le (by decide)]
    rfl
  have hdisp : dest - src = BitVec.ofInt 64 (2 ^ 2 * (word'.extractLsb' 5 19).toInt) := sub_eq_of_eq_add' href.symm
  have hbounds := shift_bounds (k := 2) (by decide) (toInt_bounds (by decide) (word'.extractLsb' 5 19))
  have htoInt : (dest - src).toInt = 2 ^ 2 * (word'.extractLsb' 5 19).toInt := by
    rw [hdisp, BitVec.toInt_ofInt_eq_self (by decide) hbounds.1 hbounds.2]
  have hfield : setField word 5 19 ((((dest - src) &&& 0x7FFFF) >>> 2).setWidth 32) = word' ↔
      (((dest - src) &&& 0x7FFFF) >>> 2).setWidth 19 = word'.extractLsb' 5 19 := by
    refine ⟨fun h => ?_, fun h => eq_of_field (setField_outside.trans hout.symm) ?_⟩
    · rw [← h, extractLsb'_setField (by decide), BitVec.setWidth_setWidth_of_le _ (by decide)]
    · rw [extractLsb'_setField (by decide), BitVec.setWidth_setWidth_of_le _ (by decide), h]
  have hand : ((dest - src) &&& 0x7FFFF).toNat = (dest - src).toNat % 2 ^ 19 := by
    rw [BitVec.toNat_and]
    exact Nat.and_two_pow_sub_one_eq_mod _ 19
  have hnat := BitVec.toInt_eq_toNat_cond (dest - src)
  have himm := BitVec.toInt_eq_toNat_cond (word'.extractLsb' 5 19)
  have hlt := (dest - src).isLt
  have hlt' := (word'.extractLsb' 5 19).isLt
  rw [hset, hfield, ← BitVec.toNat_inj, BitVec.toNat_setWidth, BitVec.toNat_ushiftRight, hand, Nat.shiftRight_eq_div_pow]
  split_ifs at hnat himm <;> omega

theorem low_piece (x : Address) : ((x &&& 0xFFFF).setWidth 32).setWidth 16 = x.setWidth 16 := by
  refine BitVec.eq_of_toNat_eq ?_
  rw [BitVec.setWidth_setWidth_of_le _ (by decide), BitVec.toNat_setWidth, BitVec.toNat_setWidth, BitVec.toNat_and]
  have hand : x.toNat &&& (0xFFFF : Address).toNat = x.toNat % 2 ^ 16 := Nat.and_two_pow_sub_one_eq_mod _ 16
  rw [hand, Nat.mod_mod]

theorem setField_piece_iff (x : Address) (hout : word' &&& ~~~Kind.immField .piece = word &&& ~~~Kind.immField .piece)
    (href : Kind.Refers .piece word' src dest) : setField word 5 16 ((x &&& 0xFFFF).setWidth 32) = word' ↔
      x.setWidth 16 = (dest >>> (16 * hw word)).setWidth 16 := by
  have hpiece : word'.extractLsb' 5 16 = (dest >>> (16 * hw word')).setWidth 16 := href
  rw [hw_congr hout] at hpiece
  rw [← hpiece, ← low_piece x]
  refine ⟨fun h => ?_, fun h => eq_of_field (setField_outside.trans hout.symm) ?_⟩
  · rw [← h, extractLsb'_setField (by decide)]
  · rw [extractLsb'_setField (by decide), h]

theorem mov_rebuild_iff (hout : word' &&& ~~~Kind.immField .piece = word &&& ~~~Kind.immField .piece)
    (href : Kind.Refers .piece word' src dest) :
    rebuild .mov word src dest = word' ↔ dest.setWidth 16 = (dest >>> (16 * hw word)).setWidth 16 := by
  have hmask : (0xFFE0001F : BitVec 32) = ~~~fieldMask 32 5 16 := by decide
  have hset : rebuild .mov word src dest = setField word 5 16 ((dest &&& 0xFFFF).setWidth 32) := by
    rw [← setField_of_mask hmask, ← BitVec.setWidth_shiftLeft_of_le (by decide)]
    rfl
  rw [hset, setField_piece_iff dest hout href]

theorem movk_rebuild (hout : word' &&& ~~~Kind.immField .piece = word &&& ~~~Kind.immField .piece)
    (href : Kind.Refers .piece word' src dest) : rebuild .movk word src dest = word' := by
  have hmask : (0xFFE0001F : BitVec 32) = ~~~fieldMask 32 5 16 := by decide
  have hhw : ((((word &&& 0xFFE0001F) >>> 21) &&& 0x3) <<< 4).toNat = 16 * hw word := by
    have hbits : ((word &&& 0xFFE0001F) >>> 21) &&& 0x3 = (word.extractLsb' 21 2).setWidth 32 := by
      refine BitVec.eq_of_getLsbD_eq fun i hi => ?_
      interval_cases i <;> simp
    have hlt := (word.extractLsb' 21 2).isLt
    rw [hbits, BitVec.toNat_shiftLeft, BitVec.toNat_setWidth, Nat.shiftLeft_eq, hw]
    omega
  have hset : rebuild .movk word src dest = setField word 5 16 (((dest >>> (16 * hw word)) &&& 0xFFFF).setWidth 32) := by
    rw [← setField_of_mask hmask, ← BitVec.setWidth_shiftLeft_of_le (by decide), ← hhw]
    rfl
  rw [hset, setField_piece_iff _ hout href]

theorem branch_rebuild {mode : Mode} (hmode : AARCH64_ImInfo mode = branch mask lsb)
    (hmask : mask = ~~~fieldMask 32 lsb width) (hwidth : width ≤ 26) (hfield : lsb + width ≤ 32)
    (hout : word' &&& ~~~Kind.immField (.relative lsb width) = word &&& ~~~Kind.immField (.relative lsb width))
    (href : (Kind.relative lsb width).Refers word' src dest) : rebuild mode word src dest = word' := by
  have hset : rebuild mode word src dest = setField word lsb width (((dest - src).sshiftRight 2).setWidth 32) := by
    rw [← setField_of_mask hmask, rebuild, hmode]
    rfl
  have hdisp : dest - src = BitVec.ofInt 64 (2 ^ 2 * (word'.extractLsb' lsb width).toInt) :=
    sub_eq_of_eq_add' href.symm
  have hbounds := shift_bounds (k := 2) (by decide) (toInt_bounds hwidth (word'.extractLsb' lsb width))
  rw [hset]
  refine eq_of_field (setField_outside.trans hout.symm) ?_
  rw [extractLsb'_setField hfield, hdisp, sshiftRight_ofInt (by decide) hbounds,
    BitVec.setWidth_setWidth_of_le _ (by omega), setWidth_ofInt_toInt (by omega)]

theorem split_rebuild {imm : BitVec 32} (hmask : mask = ~~~Kind.immField .address)
    (hout : word' &&& ~~~Kind.immField .address = word &&& ~~~Kind.immField .address)
    (himm : imm.setWidth 21 = imm21 word') : word &&& mask ||| splitImm imm = word' := by
  have hbit : ∀ j < 21, imm.getLsbD j = (imm21 word').getLsbD j := by
    intro j hj
    rw [← himm, BitVec.getLsbD_setWidth, decide_eq_true hj, Bool.true_and]
  refine BitVec.eq_of_getLsbD_eq fun i hi => ?_
  rw [BitVec.getLsbD_or, BitVec.getLsbD_and, getLsbD_splitImm hi, hmask, BitVec.getLsbD_not, immField_split hi,
    decide_eq_true hi, Bool.true_and]
  by_cases hlow : 29 ≤ i ∧ i < 31
  · rw [if_pos hlow, decide_eq_true hlow, Bool.true_or, Bool.not_true, Bool.and_false, Bool.false_or, hbit _ (by omega),
      getLsbD_imm21 (by omega), if_pos (by omega), show 29 + (i - 29) = i by omega]
  · rw [if_neg hlow, decide_eq_false hlow, Bool.false_or]
    by_cases hhigh : 5 ≤ i ∧ i < 24
    · rw [if_pos hhigh, decide_eq_true hhigh, Bool.not_true, Bool.and_false, Bool.false_or, hbit _ (by omega),
        getLsbD_imm21 (by omega), if_neg (by omega), show 3 + (i - 3) = i by omega]
    · rw [if_neg hhigh, decide_eq_false hhigh, Bool.not_false, Bool.and_true, Bool.or_false]
      refine getLsbD_of_outside hout.symm ?_
      rw [immField_split hi, decide_eq_false hlow, decide_eq_false hhigh]
      rfl

theorem adr_rebuild (hout : word' &&& ~~~Kind.immField .address = word &&& ~~~Kind.immField .address)
    (href : Kind.Refers .address word' src dest) : rebuild .adr word src dest = word' := by
  have hdisp : dest - src = BitVec.ofInt 64 (imm21 word').toInt := sub_eq_of_eq_add' href.symm
  refine split_rebuild (by decide) hout ?_
  rw [hdisp, BitVec.setWidth_setWidth_of_le _ (by decide), setWidth_ofInt_toInt (by decide)]

theorem page_add (a : Address) : page a + (a &&& 0xFFF) = a ∧ (page a).toNat + a.toNat % 2 ^ 12 = a.toNat := by
  have hzero : page a &&& (a &&& 0xFFF) = 0 := by
    refine BitVec.eq_of_getLsbD_eq fun i hi => ?_
    rw [page, BitVec.getLsbD_and, BitVec.getLsbD_and, BitVec.getLsbD_and, BitVec.getLsbD_not]
    cases (0xFFF : Address).getLsbD i <;> simp
  have hsum : page a + (a &&& 0xFFF) = a := by
    rw [BitVec.add_eq_or_of_and_eq_zero _ _ hzero]
    refine BitVec.eq_of_getLsbD_eq fun i hi => ?_
    rw [page, BitVec.getLsbD_or, BitVec.getLsbD_and, BitVec.getLsbD_and, BitVec.getLsbD_not, decide_eq_true hi]
    cases (0xFFF : Address).getLsbD i <;> simp
  have hlow : (a &&& 0xFFF).toNat = a.toNat % 2 ^ 12 := by
    rw [BitVec.toNat_and]
    exact Nat.and_two_pow_sub_one_eq_mod _ 12
  have hnat := congrArg BitVec.toNat hsum
  rw [BitVec.toNat_add_of_and_eq_zero hzero, hlow] at hnat
  exact ⟨hsum, hnat⟩

/-- The low bits of the destination do not matter. -/
theorem sshiftRight_page (src dest : Address) :
    (dest - page src).sshiftRight 12 = (page dest - page src).sshiftRight 12 := by
  obtain ⟨-, hsrc⟩ := page_add src
  obtain ⟨-, hdest⟩ := page_add dest
  have hx := BitVec.toInt_eq_toNat_cond (dest - page src)
  have hy := BitVec.toInt_eq_toNat_cond (page dest - page src)
  have hlt := dest.isLt
  have hlt' := src.isLt
  refine BitVec.eq_of_toInt_eq ?_
  rw [BitVec.toInt_sshiftRight, BitVec.toInt_sshiftRight, Int.shiftRight_eq_div_pow, Int.shiftRight_eq_div_pow]
  rw [BitVec.toNat_sub] at hx hy
  split_ifs at hx hy <;> omega

theorem adrp_rebuild (hword : Mode.adrp.Encodes word)
    (hout : word' &&& ~~~Kind.immField .page = word &&& ~~~Kind.immField .page)
    (href : Kind.Refers .page word' src dest) : rebuild .adrp word src dest = word' := by
  have hzero : word &&& 0x0F000000 = 0 := by
    have h := congrArg (· &&& 0x0F000000) (show word &&& 0x9F000000 = 0x90000000 from hword)
    simp only [BitVec.and_assoc] at h
    exact h
  have hfixed : word &&& 0x9000001F = word &&& 0x9F00001F := by
    rw [show (0x9F00001F : BitVec 32) = 0x9000001F ||| 0x0F000000 by decide, BitVec.and_or_distrib_left, hzero]
    exact BitVec.or_zero.symm
  have hdisp : page dest - page src = BitVec.ofInt 64 (2 ^ 12 * (imm21 word').toInt) := sub_eq_of_eq_add' href.symm
  have hbounds := shift_bounds (k := 12) (by decide) (toInt_bounds (by decide) (imm21 word'))
  have hset : rebuild .adrp word src dest =
      word &&& 0x9F00001F ||| splitImm (((dest - page src).sshiftRight 12).setWidth 32) := by
    rw [← hfixed]
    rfl
  rw [hset]
  refine split_rebuild (by decide) hout ?_
  rw [sshiftRight_page, hdisp, sshiftRight_ofInt (by decide) hbounds, BitVec.setWidth_setWidth_of_le _ (by decide),
    setWidth_ofInt_toInt (by decide)]

end Rebuilding

/-! ## The modes -/

section Modes

variable {word word' : BitVec 32} {src dest : Address} {mode : Mode}

theorem getLsbD_of_pattern {m c : BitVec 32} {i : Nat} (h : word &&& m = c) (hm : m.getLsbD i = true) :
    word.getLsbD i = c.getLsbD i := by
  rw [← h, BitVec.getLsbD_and, hm, Bool.and_true]

theorem getElem_accessBits (word : BitVec 32) :
    (accessBits word)[0] = word[30] ∧ (accessBits word)[1] = word[31] ∧ (accessBits word)[2] = word[23] := by
  refine ⟨?_, ?_, ?_⟩ <;>
  · rw [← BitVec.getLsbD_eq_getElem, ← BitVec.getLsbD_eq_getElem, accessBits, BitVec.getLsbD_append]
    simp

/-- Three bits of a word as a number. -/
theorem toNat_of_bits {x : BitVec 32} (h : x = (accessBits word).setWidth 32) : x.toNat = accessScale word := by
  have hlt := (accessBits word).isLt
  rw [h, BitVec.toNat_setWidth, accessScale]
  exact Nat.mod_eq_of_lt (by omega)

theorem load_scale (word : BitVec 32) :
    (((word &&& 0xFFE003FF) &&& 0x00800000) >>> 21 ||| (word &&& 0xFFE003FF) >>> 30).toNat = accessScale word := by
  obtain ⟨h0, h1, h2⟩ := getElem_accessBits word
  refine toNat_of_bits (BitVec.eq_of_getLsbD_eq fun i hi => ?_)
  interval_cases i <;> simp [h0, h1, h2]

theorem store_scale (h : word[23] = false) : ((word &&& 0xFFE003FF) >>> 30).toNat = accessScale word := by
  obtain ⟨h0, h1, h2⟩ := getElem_accessBits word
  refine toNat_of_bits (BitVec.eq_of_getLsbD_eq fun i hi => ?_)
  interval_cases i <;> simp [h0, h1, h2, h]

/-- A store of 128 bits has the size bits 0. -/
theorem store_quad (hword : Mode.str.Encodes word) (h : word[23] = true) :
    accessScale word = 4 ∧ ((word &&& 0xFFE003FF) >>> 30).toNat = 0 := by
  obtain ⟨h0, h1, h2⟩ := getElem_accessBits word
  have hquad : word &&& 0xFFC00000 = 0x3D800000 := by
    rw [← BitVec.getLsbD_eq_getElem] at h
    rcases hword with hint | hsimd | hquad
    · exact absurd ((getLsbD_of_pattern hint (by decide)).symm.trans h) (by decide)
    · exact absurd ((getLsbD_of_pattern hsimd (by decide)).symm.trans h) (by decide)
    · exact hquad
  have h30 : word[30] = false := getLsbD_of_pattern hquad (by decide)
  have h31 : word[31] = false := getLsbD_of_pattern hquad (by decide)
  have hscale : accessBits word = 4#3 := by
    refine BitVec.eq_of_getLsbD_eq fun i hi => ?_
    interval_cases i <;> simp [h0, h1, h2, h, h30, h31]
  have hsize : (word &&& 0xFFE003FF) >>> 30 = 0#32 := by
    refine BitVec.eq_of_getLsbD_eq fun i hi => ?_
    interval_cases i <;> simp [h30, h31]
  exact ⟨congrArg BitVec.toNat hscale, congrArg BitVec.toNat hsize⟩

theorem offset_bit_succ (dest : Address) {s : Nat} (hs : 0 < s) : ((dest &&& 0xFFF) >>> s).getLsbD 11 = false := by
  have hlt : (dest &&& 0xFFF).toNat < 2 ^ 12 := by
    rw [BitVec.toNat_and]
    exact Nat.lt_of_le_of_lt Nat.and_le_right (by decide)
  rw [BitVec.getLsbD_ushiftRight, BitVec.getLsbD, Nat.testBit_lt_two_pow]
  exact Nat.lt_of_lt_of_le hlt (Nat.pow_le_pow_right (by decide) (by omega))

theorem offset_bit_zero (dest : Address) : ((dest &&& 0xFFF) >>> 0).getLsbD 11 = dest.getLsbD 11 := by
  rw [BitVec.getLsbD_ushiftRight, BitVec.getLsbD_and]
  exact Bool.and_true _

/-- The instruction for the destination is what is rebuilt exactly when all of its bits are handled. -/
theorem rebuild_eq_iff (hword : mode.Encodes word)
    (hout : word' &&& ~~~(mode.kind word).immField = word &&& ~~~(mode.kind word).immField)
    (href : (mode.kind word).Refers word' src dest) :
    rebuild mode word src dest = word' ↔ Handled mode word src dest := by
  cases mode with
  | adrp => exact iff_of_true (adrp_rebuild hword hout href) trivial
  | adr => exact iff_of_true (adr_rebuild hout href) trivial
  | addimm => exact iff_of_true (addimm_rebuild hout href) trivial
  | ldrimm => exact pageOffset_rebuild_iff rfl (load_scale word) hout href
  | ldrh | ldrsh | strh =>
    refine Iff.trans (pageOffset_rebuild_iff (?_ : _ = pageOffset _ fun _ => 1) rfl hout href) ?_
    · rfl
    · rw [offset_bit_succ dest (by decide)]
      rfl
  | ldrsw =>
    refine Iff.trans (pageOffset_rebuild_iff (?_ : _ = pageOffset _ fun _ => 2) rfl hout href) ?_
    · rfl
    · rw [offset_bit_succ dest (by decide)]
      rfl
  | ldrb | ldrsb | strb =>
    refine Iff.trans (pageOffset_rebuild_iff (?_ : _ = pageOffset _ fun _ => 0) rfl hout href) ?_
    · rfl
    · rw [offset_bit_zero]
      rfl
  | ldrlit => exact ldrlit_rebuild_iff hout href
  | mov => exact mov_rebuild_iff hout href
  | movk => exact iff_of_true (movk_rebuild hout href) trivial
  | str =>
    unfold Handled
    cases hbit : word.getLsbD 23 with
    | false => exact pageOffset_rebuild_iff rfl (store_scale hbit) hout href
    | true =>
      obtain ⟨hscale, hsize⟩ := store_quad hword hbit
      simp only [Mode.kind, hscale] at hout href
      exact store_rebuild_iff hsize hout href
  | bl | b => exact iff_of_true (branch_rebuild rfl (by decide) (by decide) (by decide) hout href) trivial
  | bcond | cbz | cbnz => exact iff_of_true (branch_rebuild rfl (by decide) (by decide) (by decide) hout href) trivial
  | tbz | tbnz => exact iff_of_true (branch_rebuild rfl (by decide) (by decide) (by decide) hout href) trivial

theorem kind_small (mode : Mode) (word : BitVec 32) : (mode.kind word).Small := by
  cases mode <;> simp [Mode.kind, Kind.Small]

/-- For a destination in range the rebuilt word is right exactly when the destination is handled. -/
theorem rebuilt_iff (hword : mode.Encodes word) (hrange : InRange mode word src dest) :
    Rebuilt mode word src dest ↔ Handled mode word src dest := by
  obtain ⟨word', hout, href⟩ := hrange
  rw [← rebuild_eq_iff hword hout href]
  constructor
  · rintro ⟨hrefers, houtside, -⟩
    exact refers_inj (kind_small mode word) (houtside.trans hout.symm) hrefers href
  · intro h
    refine ⟨h ▸ href, h ▸ hout, fun hself => ?_⟩
    rw [h]
    exact refers_inj (kind_small mode word) hout href hself

end Modes

/-! ### `bl` and `ldrb w0, [x0]` -/

theorem bl_rebuilt : Rebuilt .bl 0x94000000 0x401000 0x400000 := by
  have hword : Mode.bl.Encodes 0x94000000 := by
    unfold Mode.Encodes
    decide
  have hrange : InRange .bl 0x94000000 0x401000 0x400000 := ⟨0x97FFFC00, by decide, by decide⟩
  exact (rebuilt_iff hword hrange).2 trivial

/-- The offset 0x800 needs the bit that the mask keeps. -/
theorem offset_bit_dropped : Mode.ldrb.Encodes 0x39400000 ∧ InRange .ldrb 0x39400000 0x401000 0x411800 ∧
    rebuild .ldrb 0x39400000 0x401000 0x411800 = 0x39400000 ∧ ¬ Rebuilt .ldrb 0x39400000 0x401000 0x411800 := by
  refine ⟨by unfold Mode.Encodes; decide, ⟨0x39600000, by decide, ?_⟩, by decide, fun h => ?_⟩
  · decide
  · exact absurd h.refers (by decide)

end Egalito.LinkedAarch64
