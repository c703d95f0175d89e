import Egalito.Lib.BitField
import Egalito.Disasm.A64
/-!
# `AARCH64RegBits`

`disasm/aarch64-regbits.cpp`: where the register fields of an instruction are,
found by tests of its bits. A `char` has no sign on this architecture.
-/

open Egalito.Lib

namespace Egalito.RegBits

abbrev Bytes := Fin 4 → BitVec 8

/-- `PhysicalRegister::encoding` of a general-purpose register; that of SP is 31. -/
abbrev Register := BitVec 5

/-- The positions of the fields that are read, and of those that are written. -/
structure RegPositionsList where
  first : List Nat
  second : List Nat
deriving DecidableEq, Repr

structure AARCH64RegBits where
  bin : BitVec 32
  cached : Bool
  list : RegPositionsList

def regMask : BitVec 32 := 0x1F

/-- The object before anything is decoded; `bin` has any value. -/
def AARCH64RegBits.new (bin : BitVec 32) : AARCH64RegBits := ⟨bin, false, ⟨[], []⟩⟩

def invalidateCache (s : AARCH64RegBits) : AARCH64RegBits := { s with cached := false, list := ⟨[], []⟩ }

def decode (bytes : Bytes) (s : AARCH64RegBits) : AARCH64RegBits :=
  invalidateCache { s with
    bin := (bytes 3).setWidth 32 <<< 24 ||| (bytes 2).setWidth 32 <<< 16 ||| (bytes 1).setWidth 32 <<< 8 |||
      (bytes 0).setWidth 32 }

def encode (s : AARCH64RegBits) : Bytes :=
  ![(s.bin >>> 0 &&& 0xFF).setWidth 8, (s.bin >>> 8 &&& 0xFF).setWidth 8, (s.bin >>> 16 &&& 0xFF).setWidth 8,
    (s.bin >>> 24 &&& 0xFF).setWidth 8]

/-! ## The categories -/

section Categories

variable (bin : BitVec 32)

def makeDPImmRegPositionList : RegPositionsList :=
  if bin &&& 0x1F000000 = 0x11000000 -- C4.2.1 Add/subtract (immediate)
    ∨ bin &&& 0x1F800000 = 0x13000000 -- C4.2.2 Bitfield
    ∨ bin &&& 0x1F800000 = 0x12000000 -- C4.2.4 Logical (immediate)
  then ⟨[5], [0]⟩
  else if bin &&& 0x1F800000 = 0x13800000 -- C4.2.3 Extract
  then ⟨[5, 16], [0]⟩
  else if bin &&& 0x1F800000 = 0x12800000 -- C4.2.5 Move wide (immediate)
    ∨ bin &&& 0x1F000000 = 0x10000000 -- C4.2.6 PC-rel. addressing
  then ⟨[], [0]⟩
  else ⟨[], []⟩

def makeBranchRegPositionList : RegPositionsList :=
  if bin &&& 0xFE000000 = 0x34000000 -- C4.3.1 Compare & branch (imm)
    ∨ bin &&& 0x7E000000 = 0x36000000 -- C4.3.5 Test & branch (immediate)
  then ⟨[0], []⟩
  else if bin &&& 0xFFC00000 = 0xD5000000 -- C4.3.4 System
  then
    let L := bin >>> 21 &&& 0x1
    let op0 := bin >>> 19 &&& 0x3
    if L = 0 then
      if op0 = 0x1 ∨ op0 &&& 0x3 = 0x3 then ⟨[0], []⟩ else ⟨[], []⟩
    else if L = 1 then ⟨[], [0]⟩
    else ⟨[], []⟩
  else if bin &&& 0xFE000000 = 0xD6000000 -- C4.3.7 Unconditional branch (reg)
  then ⟨[5], []⟩
  else ⟨[], []⟩

/-- What the `switch` statements are about; `>>` binds more tightly than `&`. -/
def switchValue : BitVec 32 := (bin &&& 0x04000000 >>> (26 - 2)) ||| (bin &&& 0x00C00000 >>> 22)

/-- `list` is left alone if nothing is found out. -/
def makeLDSTRegPositionList (list : RegPositionsList) : RegPositionsList :=
  let op1 := bin >>> 28 &&& 0x3
  if op1 = 0 then list
  else if bin &&& 0x3B000000 = 0x18000000 -- C4.4.5 Load (literal)
  then ⟨[], [0]⟩
  else if bin &&& 0x3B200C00 = 0x38000400 -- C4.4.8 LD/ST (imm post)
    ∨ bin &&& 0x3B200C00 = 0x38000C00 -- C4.4.9 LD/ST (imm pre)
    ∨ bin &&& 0x3B200C00 = 0x38000800 -- C4.4.11 LD/ST (unprivileged)
    ∨ bin &&& 0x3B200C00 = 0x38000000 -- C4.4.12 LD/ST (unscaled imm)
    ∨ bin &&& 0x3B000C00 = 0x39000000 -- C4.4.13 LD/ST (unsigned imm)
  then
    let writeback := bin >>> 10 &&& 0x1
    match (switchValue bin).toNat with
    | 1 | 2 | 3 | 5 | 7 => ⟨[5], if writeback ≠ 0 then [0, 5] else [0]⟩
    | 0 | 4 | 6 => ⟨[0, 5], if writeback ≠ 0 then [5] else []⟩
    | _ => ⟨[], []⟩
  else if bin &&& 0x3B200C00 = 0x38200800 -- C4.4.10 LD/ST (register)
  then
    match (switchValue bin).toNat with
    | 1 | 2 | 3 | 5 | 7 => ⟨[5, 16], [0]⟩
    | 0 | 4 | 6 => ⟨[0, 5, 16], []⟩
    | _ => ⟨[], []⟩
  else if bin &&& 0x3BC00000 = 0x28000000 -- C4.4.7 LD/ST no-a pair (offset)
    ∨ bin &&& 0x3B800000 = 0x29000000 -- C4.4.14 LD/ST pair (offset)
    ∨ bin &&& 0x3B800000 = 0x28800000 -- C4.4.15 LD/ST pair (post)
    ∨ bin &&& 0x3B800000 = 0x29800000 -- C4.4.15 LD/ST pair (pre)
  then
    let writeback := bin >>> 23 &&& 0x1
    let L := bin >>> 22 &&& 0x1
    if L ≠ 0 then ⟨[5], if writeback ≠ 0 then [0, 10, 5] else [0, 10]⟩
    else ⟨[0, 5, 10], if writeback ≠ 0 then [5] else []⟩
  else ⟨[], []⟩

def makeDPIRegRegPositionList : RegPositionsList :=
  if bin &&& 0x1F200000 = 0x0B200000 -- C4.5.1 Add/subtract (extended)
    ∨ bin &&& 0x1F200000 = 0x0B000000 -- C4.5.2 Add/subtract (shifted)
    ∨ bin &&& 0x1FE00000 = 0x1A000000 -- C4.5.3 Add/subtract (w/ carry)
    ∨ bin &&& 0x1FE00800 = 0x1A400000 -- C4.5.5 Conditional compare (reg)
    ∨ bin &&& 0x3FE00000 = 0x1AC00000 -- C4.5.8 Data-processing (2 src)
    ∨ bin &&& 0x1F000000 = 0x0A000000 -- C4.5.10 Logical (shifted)
  then ⟨[5, 16], [0]⟩
  else if bin &&& 0x1FE00800 = 0x1A400800 -- C4.5.4 Conditional compare (imm)
  then ⟨[5], []⟩
  else if bin &&& 0x1FE00000 = 0x1A800000 -- C4.5.6 Conditional select
  then ⟨[5, 16], [0]⟩
  else if bin &&& 0x3FE00000 = 0x3AC00000 -- C4.5.7 Data-processing (1 src)
  then ⟨[5], [0]⟩
  else if bin &&& 0x1F000000 = 0x1A000000 -- C4.5.9 Data-processing (3 src)
  then ⟨[5, 10, 16], [0]⟩
  else ⟨[], []⟩

end Categories

/-! ## Queries -/

def getRegPositionList (s : AARCH64RegBits) : RegPositionsList × AARCH64RegBits :=
  if s.cached then (s.list, s)
  else
    -- C4.1
    let op0 := s.bin >>> 25 &&& 0xF
    let found := fun list => (list, { s with cached := true, list := list })
    if op0 &&& 0b1110 = 0b1000 then found (makeDPImmRegPositionList s.bin)
    else if op0 &&& 0b1010 = 0b1010 then found (makeBranchRegPositionList s.bin)
    else if op0 &&& 0b0101 = 0b0100 then found (makeLDSTRegPositionList s.bin s.list)
    else if op0 &&& 0b0111 = 0b0101 then found (makeDPIRegRegPositionList s.bin)
    else (s.list, s)

def isReading (reg : Register) (s : AARCH64RegBits) : Bool × AARCH64RegBits :=
  let (list, s) := getRegPositionList s
  (list.first.any fun rpos => s.bin >>> rpos &&& regMask = reg.setWidth 32, s)

def isWriting (reg : Register) (s : AARCH64RegBits) : Bool × AARCH64RegBits :=
  let (list, s) := getRegPositionList s
  (list.second.any fun wpos => s.bin >>> wpos &&& regMask = reg.setWidth 32, s)

/-- What the two loops do at a position. -/
def replaceAt (oldReg newReg : Register) (bin : BitVec 32) (pos : Nat) : BitVec 32 :=
  let r := bin >>> pos &&& regMask
  if r = oldReg.setWidth 32 then (bin &&& ~~~(regMask <<< pos)) ||| newReg.setWidth 32 <<< pos else bin

def replaceRegister (oldReg newReg : Register) (s : AARCH64RegBits) : AARCH64RegBits :=
  let (list, s) := getRegPositionList s
  let bin := list.first.foldl (replaceAt oldReg newReg) s.bin
  let bin := list.second.foldl (replaceAt oldReg newReg) bin
  invalidateCache { s with bin := bin }

/-! ## The tests as questions about bits -/

def dpImmQuestions : Decision 32 RegPositionsList :=
  .any [⟨0x1F000000, 0x11000000⟩, ⟨0x1F800000, 0x13000000⟩, ⟨0x1F800000, 0x12000000⟩] (.result ⟨[5], [0]⟩) <|
  .any [⟨0x1F800000, 0x13800000⟩] (.result ⟨[5, 16], [0]⟩) <|
  .any [⟨0x1F800000, 0x12800000⟩, ⟨0x1F000000, 0x10000000⟩] (.result ⟨[], [0]⟩) (.result ⟨[], []⟩)

def branchQuestions : Decision 32 RegPositionsList :=
  .any [⟨0xFE000000, 0x34000000⟩, ⟨0x7E000000, 0x36000000⟩] (.result ⟨[0], []⟩) <|
  .any [⟨0xFFC00000, 0xD5000000⟩]
    (.any [⟨0x00200000, 0⟩]
      (.any [⟨0x00180000, 0x00080000⟩, ⟨0x00180000, 0x00180000⟩] (.result ⟨[0], []⟩) (.result ⟨[], []⟩))
      (.result ⟨[], [0]⟩)) <|
  .any [⟨0xFE000000, 0xD6000000⟩] (.result ⟨[5], []⟩) (.result ⟨[], []⟩)

/-- The cases of the `switch` statements that are taken for loads. -/
def loadCases : List (Pattern 32) := [⟨7, 1⟩, ⟨7, 2⟩, ⟨7, 3⟩, ⟨7, 5⟩, ⟨7, 7⟩]

def writebackBit : Pattern 32 := ⟨0x400, 0x400⟩

def pairWritebackBit : Pattern 32 := ⟨0x800000, 0x800000⟩

def ldstQuestions : Decision 32 RegPositionsList :=
  .any [⟨0x30000000, 0⟩] (.result ⟨[], []⟩) <|
  .any [⟨0x3B000000, 0x18000000⟩] (.result ⟨[], [0]⟩) <|
  .any [⟨0x3B200C00, 0x38000400⟩, ⟨0x3B200C00, 0x38000C00⟩, ⟨0x3B200C00, 0x38000800⟩, ⟨0x3B200C00, 0x38000000⟩,
      ⟨0x3B000C00, 0x39000000⟩]
    (.any loadCases
      (.any [writebackBit] (.result ⟨[5], [0, 5]⟩) (.result ⟨[5], [0]⟩))
      (.any [writebackBit] (.result ⟨[0, 5], [5]⟩) (.result ⟨[0, 5], []⟩))) <|
  .any [⟨0x3B200C00, 0x38200800⟩] (.any loadCases (.result ⟨[5, 16], [0]⟩) (.result ⟨[0, 5, 16], []⟩)) <|
  .any [⟨0x3BC00000, 0x28000000⟩, ⟨0x3B800000, 0x29000000⟩, ⟨0x3B800000, 0x28800000⟩, ⟨0x3B800000, 0x29800000⟩]
    (.any [⟨0x400000, 0x400000⟩]
      (.any [pairWritebackBit] (.result ⟨[5], [0, 10, 5]⟩) (.result ⟨[5], [0, 10]⟩))
      (.any [pairWritebackBit] (.result ⟨[0, 5, 10], [5]⟩) (.result ⟨[0, 5, 10], []⟩)))
    (.result ⟨[], []⟩)

def dpiRegQuestions : Decision 32 RegPositionsList :=
  .any [⟨0x1F200000, 0x0B200000⟩, ⟨0x1F200000, 0x0B000000⟩, ⟨0x1FE00000, 0x1A000000⟩, ⟨0x1FE00800, 0x1A400000⟩,
      ⟨0x3FE00000, 0x1AC00000⟩, ⟨0x1F000000, 0x0A000000⟩] (.result ⟨[5, 16], [0]⟩) <|
  .any [⟨0x1FE00800, 0x1A400800⟩] (.result ⟨[5], []⟩) <|
  .any [⟨0x1FE00000, 0x1A800000⟩] (.result ⟨[5, 16], [0]⟩) <|
  .any [⟨0x3FE00000, 0x3AC00000⟩] (.result ⟨[5], [0]⟩) <|
  .any [⟨0x1F000000, 0x1A000000⟩] (.result ⟨[5, 10, 16], [0]⟩) (.result ⟨[], []⟩)

def questions : Decision 32 RegPositionsList :=
  .any [⟨0x1C000000, 0x10000000⟩] dpImmQuestions <|
  .any [⟨0x14000000, 0x14000000⟩] branchQuestions <|
  .any [⟨0x0A000000, 0x08000000⟩] ldstQuestions <|
  .any [⟨0x0E000000, 0x0A000000⟩] dpiRegQuestions (.result ⟨[], []⟩)

section

variable {bin : BitVec 32}

theorem eval_any_one {p : Pattern 32} {yes no : Decision 32 RegPositionsList} :
    (Decision.any [p] yes no).eval bin = if bin &&& p.mask = p.value then yes.eval bin else no.eval bin := by
  rw [Decision.eval_any]
  simp [Pattern.Matches]

theorem eval_dpImmQuestions : dpImmQuestions.eval bin = makeDPImmRegPositionList bin := by
  simp only [dpImmQuestions, makeDPImmRegPositionList, Decision.eval_any, List.mem_cons, List.not_mem_nil, or_false,
    exists_eq_or_imp, exists_eq_left, Pattern.Matches, Decision.eval]

theorem eval_dpiRegQuestions : dpiRegQuestions.eval bin = makeDPIRegRegPositionList bin := by
  simp only [dpiRegQuestions, makeDPIRegRegPositionList, Decision.eval_any, List.mem_cons, List.not_mem_nil, or_false,
    exists_eq_or_imp, exists_eq_left, Pattern.Matches, Decision.eval]

theorem and_one_eq_one (h : bin &&& 1 ≠ 0) : bin &&& 1 = 1 := by
  have hand : bin &&& 1 = (BitVec.ofBool (bin.getLsbD 0)).setWidth 32 := BitVec.and_one_eq_setWidth_ofBool_getLsbD
  cases hbit : bin.getLsbD 0 with
  | false => exact absurd (hand.trans (by rw [hbit]; rfl)) h
  | true => exact hand.trans (by rw [hbit]; rfl)

theorem shiftRight_and_one_ne_zero {k : Nat} (hk : (1 : BitVec 32) <<< k >>> k = 1) :
    bin >>> k &&& 1 ≠ 0 ↔ bin &&& (1 : BitVec 32) <<< k = (1 : BitVec 32) <<< k := by
  rw [← shiftRight_and_eq_iff hk hk]
  constructor
  · exact and_one_eq_one
  · intro h
    rw [h]
    decide

theorem eval_branchQuestions : branchQuestions.eval bin = makeBranchRegPositionList bin := by
  have hL : bin >>> 21 &&& 1 = 0 ↔ bin &&& 0x00200000 = 0 := shiftRight_and_eq_iff (by decide) (by decide)
  have hsys : bin >>> 19 &&& 3 = 1 ↔ bin &&& 0x00180000 = 0x00080000 := shiftRight_and_eq_iff (by decide) (by decide)
  have hmsr : bin >>> 19 &&& 3 &&& 3 = 3 ↔ bin &&& 0x00180000 = 0x00180000 := by
    rw [BitVec.and_assoc]
    exact shiftRight_and_eq_iff (by decide) (by decide)
  simp only [branchQuestions, makeBranchRegPositionList, Decision.eval_any, List.mem_cons, List.not_mem_nil, or_false,
    exists_eq_or_imp, exists_eq_left, Pattern.Matches, Decision.eval, hsys, hmsr, hL]
  by_cases h : bin &&& 0x00200000 = 0
  · simp only [h, if_true]
  · have hone := and_one_eq_one (mt hL.1 h)
    simp only [h, hone, if_false, if_true]

theorem switchValue_eq : switchValue bin = bin &&& 7 := by
  change (bin &&& 4) ||| (bin &&& 3) = bin &&& 7
  rw [← BitVec.and_or_distrib_left]
  rfl

variable (bin) in
/-- The low three bits are one of the eight cases. -/
theorem exists_and_seven : ∃ k < 8, bin &&& 7 = BitVec.ofNat 32 k := by
  refine ⟨(bin &&& 7).toNat, ?_, by rw [BitVec.ofNat_toNat, BitVec.setWidth_eq]⟩
  rw [BitVec.toNat_and]
  exact Nat.lt_of_le_of_lt Nat.and_le_right (by decide)

/-- The `switch` statements. -/
theorem switch_eq (yes no other : RegPositionsList) : (match (switchValue bin).toNat with
      | 1 | 2 | 3 | 5 | 7 => yes
      | 0 | 4 | 6 => no
      | _ => other) =
    if bin &&& 7 = 1 ∨ bin &&& 7 = 2 ∨ bin &&& 7 = 3 ∨ bin &&& 7 = 5 ∨ bin &&& 7 = 7 then yes else no := by
  rw [switchValue_eq]
  obtain ⟨k, hk, h⟩ := exists_and_seven bin
  rw [h]
  interval_cases k <;> rfl

theorem eval_ldstQuestions : ldstQuestions.eval bin = makeLDSTRegPositionList bin ⟨[], []⟩ := by
  have hop : bin >>> 28 &&& 3 = 0 ↔ bin &&& 0x30000000 = 0 := shiftRight_and_eq_iff (by decide) (by decide)
  have hwriteback : bin >>> 10 &&& 1 ≠ 0 ↔ bin &&& 0x400 = 0x400 := shiftRight_and_one_ne_zero (by decide)
  have hpair : bin >>> 23 &&& 1 ≠ 0 ↔ bin &&& 0x800000 = 0x800000 := shiftRight_and_one_ne_zero (by decide)
  have hL : bin >>> 22 &&& 1 ≠ 0 ↔ bin &&& 0x400000 = 0x400000 := shiftRight_and_one_ne_zero (by decide)
  simp only [ldstQuestions, makeLDSTRegPositionList, switch_eq, loadCases, Decision.eval_any, List.mem_cons, List.not_mem_nil, or_false,
    exists_eq_or_imp, exists_eq_left, Pattern.Matches, Decision.eval, hop, writebackBit, pairWritebackBit, hwriteback, hpair, hL]
  by_cases hw : bin &&& 0x400 = 0x400 <;> by_cases hp : bin &&& 0x800000 = 0x800000 <;> simp only [hw, hp, if_true, if_false]

/-- The positions that are found in a word. -/
def regPositions (bin : BitVec 32) : RegPositionsList := (getRegPositionList ⟨bin, false, ⟨[], []⟩⟩).1

theorem eval_questions : questions.eval bin = regPositions bin := by
  have himm : bin >>> 25 &&& 0xF &&& 0b1110 = 0b1000 ↔ bin &&& 0x1C000000 = 0x10000000 := by
    rw [BitVec.and_assoc]
    exact shiftRight_and_eq_iff (by decide) (by decide)
  have hbranch : bin >>> 25 &&& 0xF &&& 0b1010 = 0b1010 ↔ bin &&& 0x14000000 = 0x14000000 := by
    rw [BitVec.and_assoc]
    exact shiftRight_and_eq_iff (by decide) (by decide)
  have hldst : bin >>> 25 &&& 0xF &&& 0b0101 = 0b0100 ↔ bin &&& 0x0A000000 = 0x08000000 := by
    rw [BitVec.and_assoc]
    exact shiftRight_and_eq_iff (by decide) (by decide)
  have hreg : bin >>> 25 &&& 0xF &&& 0b0111 = 0b0101 ↔ bin &&& 0x0E000000 = 0x0A000000 := by
    rw [BitVec.and_assoc]
    exact shiftRight_and_eq_iff (by decide) (by decide)
  simp only [questions, eval_any_one, eval_dpImmQuestions, eval_branchQuestions, eval_ldstQuestions, eval_dpiRegQuestions,
    Decision.eval, regPositions, getRegPositionList, himm, hbranch, hldst, hreg, Bool.false_eq_true, if_false]
  split_ifs <;> rfl

end

/-! ## What is found for the instructions of a class -/

open A64 in
/-- The questions that are left for a word of the class. -/
def questionsLeft : InstructionClass → Decision 32 RegPositionsList
  | .pcRelative | .moveWide | .moveKeep | .sysl | .mrs | .loadLiteral | .prefetchLiteral => .result ⟨[], [0]⟩
  | .addSubImmediate | .logicalImmediate | .bitfield | .bitfieldInsert => .result ⟨[5], [0]⟩
  | .extract | .logicalShifted | .addSubShifted | .addSubExtended | .addSubCarry | .conditionalCompareRegister | .conditionalSelect
  | .twoSource | .oneSource => .result ⟨[5, 16], [0]⟩
  | .sys | .testAndBranch => .result ⟨[0], []⟩
  | .msr => .ask ⟨0x00180000, 0x00180000⟩ (.result ⟨[0], []⟩) (.result ⟨[], []⟩)
  | .branchRegister | .branchLinkRegister | .ret | .exceptionReturn | .conditionalCompareImmediate => .result ⟨[5], []⟩
  | .compareAndBranch => .ask ⟨0xFE000000, 0x34000000⟩ (.result ⟨[0], []⟩) (.result ⟨[], []⟩)
  | .storePair .noAllocate | .storePair .offset => .result ⟨[0, 5, 10], []⟩
  | .storePair .post | .storePair .pre => .result ⟨[0, 5, 10], [5]⟩
  | .loadPair .offset => .result ⟨[5], [0, 10]⟩
  | .loadPair .post | .loadPair .pre => .result ⟨[5], [0, 10, 5]⟩
  | .simdPair .noAllocate => .ask ⟨0x3BC00000, 0x28000000⟩ (.result ⟨[0, 5, 10], []⟩) (.result ⟨[], []⟩)
  | .simdPair .offset => .ask ⟨0x400000, 0x400000⟩ (.result ⟨[5], [0, 10]⟩) (.result ⟨[0, 5, 10], []⟩)
  | .simdPair .post | .simdPair .pre => .ask ⟨0x400000, 0x400000⟩ (.result ⟨[5], [0, 10, 5]⟩) (.result ⟨[0, 5, 10], [5]⟩)
  | .store .unscaled | .load .unscaled | .prefetch .unscaled | .store .unprivileged | .load .unprivileged =>
    .any loadCases (.result ⟨[5], [0]⟩) (.result ⟨[0, 5], []⟩)
  | .store .post | .load .post | .store .pre | .load .pre => .any loadCases (.result ⟨[5], [0, 5]⟩) (.result ⟨[0, 5], [5]⟩)
  | .store .register | .load .register | .prefetch .register => .any loadCases (.result ⟨[5, 16], [0]⟩) (.result ⟨[0, 5, 16], []⟩)
  | .store .unsigned | .load .unsigned | .prefetch .unsigned =>
    .ask ⟨0x3B000C00, 0x39000000⟩ (.any loadCases (.result ⟨[5], [0]⟩) (.result ⟨[0, 5], []⟩)) (.result ⟨[], []⟩)
  | .simdOnly => .ask ⟨0x14000000, 0x14000000⟩ (.result ⟨[], []⟩) (.result ⟨[], []⟩)
  | _ => .result ⟨[], []⟩

open A64 in
theorem prune_questions (c : InstructionClass) : ∀ p ∈ c.patterns, questions.prune p = questionsLeft c := by
  cases c with
  | storePair addressing => cases addressing <;> decide
  | loadPair addressing => cases addressing <;> decide
  | simdPair addressing => cases addressing <;> decide
  | store addressing => cases addressing <;> decide
  | load addressing => cases addressing <;> decide
  | prefetch addressing => cases addressing <;> decide
  | simd addressing => cases addressing <;> decide
  | _ => decide

open A64 in
theorem regPositions_eq {c : InstructionClass} {word : BitVec 32} (h : c.Matches word) :
    regPositions word = (questionsLeft c).eval word := by
  obtain ⟨p, hp, hmatches⟩ := h.1
  rw [← eval_questions, ← Decision.eval_prune hmatches, prune_questions c p hp]

/-! ## Register fields -/

open A64

section

variable {bin word : BitVec 32} {pos : Nat} {oldReg newReg : Register} {l ops : List Nat}

theorem shiftRight_and_regMask (bin : BitVec 32) (pos : Nat) : bin >>> pos &&& regMask = (field bin pos).setWidth 32 := by
  refine BitVec.eq_of_getLsbD_eq fun i hi => ?_
  have hmask : regMask = (BitVec.allOnes 5).setWidth 32 := by decide
  rw [hmask, BitVec.getLsbD_and, BitVec.getLsbD_setWidth, BitVec.getLsbD_setWidth, BitVec.getLsbD_ushiftRight, A64.field,
    BitVec.getLsbD_extractLsb', BitVec.getLsbD_allOnes]
  simp only [hi, decide_true, Bool.true_and]
  exact Bool.and_comm _ _

theorem setWidth_inj {a b : Register} : a.setWidth 32 = b.setWidth 32 ↔ a = b := by
  constructor
  · intro h
    have hcut := congrArg (fun x : BitVec 32 => x.setWidth 5) h
    simpa using hcut
  · exact congrArg _

theorem replaceAt_eq : replaceAt oldReg newReg bin pos =
    if field bin pos = oldReg then setField bin pos 5 (newReg.setWidth 32) else bin := by
  have hnew : newReg.setWidth 32 <<< pos &&& fieldMask 32 pos 5 = newReg.setWidth 32 <<< pos := by
    rw [fieldMask, ← BitVec.shiftLeft_and_distrib, ← BitVec.setWidth_and, BitVec.and_allOnes]
  simp only [replaceAt, shiftRight_and_regMask, setWidth_inj, setField, hnew]
  rfl

theorem disjoint_of_ne : ∀ p ∈ positions, ∀ q ∈ positions, p ≠ q → p + 5 ≤ q ∨ q + 5 ≤ p := by decide

theorem le_of_mem_positions : ∀ p ∈ positions, p + 5 ≤ 32 := by decide

/-- A field is its bits. -/
theorem field_congr {word' : BitVec 32} (h : ∀ i, pos ≤ i → i < pos + 5 → word'.getLsbD i = word.getLsbD i) :
    field word' pos = field word pos := by
  refine BitVec.eq_of_getLsbD_eq fun i hi => ?_
  rw [A64.field, A64.field, BitVec.getLsbD_extractLsb', BitVec.getLsbD_extractLsb', h (pos + i) (by omega) (by omega)]

theorem field_replaceAt {p : Nat} (hp : p ∈ positions) (hpos : pos ∈ positions) : field (replaceAt oldReg newReg bin p) pos =
    if pos = p ∧ field bin pos = oldReg then newReg else field bin pos := by
  rw [replaceAt_eq]
  by_cases hpp : pos = p
  · subst hpp
    by_cases hold : field bin pos = oldReg
    · rw [if_pos hold, if_pos ⟨rfl, hold⟩, A64.field, extractLsb'_setField (le_of_mem_positions pos hpos)]
      simp
    · rw [if_neg hold, if_neg fun h => hold h.2]
  · have hnot : ¬ (pos = p ∧ field bin pos = oldReg) := fun h => hpp h.1
    rw [if_neg hnot]
    split_ifs
    · refine field_congr fun i hi hi' => ?_
      have hlt := le_of_mem_positions pos hpos
      have hdisjoint := disjoint_of_ne pos hpos p hp hpp
      rw [getLsbD_setField (by omega), if_neg (by omega)]
    · rfl

theorem getLsbD_replaceAt {p i : Nat} (hi : i < 32) (hout : ¬ (p ≤ i ∧ i < p + 5)) :
    (replaceAt oldReg newReg bin p).getLsbD i = bin.getLsbD i := by
  rw [replaceAt_eq]
  split_ifs
  · rw [getLsbD_setField hi, if_neg hout]
  · rfl

theorem field_foldl_replaceAt (hl : ∀ p ∈ l, p ∈ positions) (hpos : pos ∈ positions) :
    field (l.foldl (replaceAt oldReg newReg) bin) pos = if pos ∈ l ∧ field bin pos = oldReg then newReg else field bin pos := by
  induction l generalizing bin with
  | nil => simp
  | cons p l ih =>
    obtain ⟨hp, hl⟩ := List.forall_mem_cons.1 hl
    rw [List.foldl_cons, ih hl, field_replaceAt hp hpos]
    by_cases hpp : pos = p
    · subst hpp
      by_cases hold : field bin pos = oldReg <;> simp [hold]
    · simp [hpp]

theorem getLsbD_foldl_replaceAt {i : Nat} (hi : i < 32) (hout : ∀ p ∈ l, ¬ (p ≤ i ∧ i < p + 5)) :
    (l.foldl (replaceAt oldReg newReg) bin).getLsbD i = bin.getLsbD i := by
  induction l generalizing bin with
  | nil => rfl
  | cons p l ih =>
    obtain ⟨hp, hl⟩ := List.forall_mem_cons.1 hout
    rw [List.foldl_cons, ih hl, getLsbD_replaceAt hi hp]

/-- Exactly the fields of `ops` that hold the one register hold the other one then. -/
structure Replaces (ops : List Nat) (oldReg newReg : Register) (word word' : BitVec 32) : Prop where
  field_eq : ∀ pos ∈ ops, field word' pos = if field word pos = oldReg then newReg else field word pos
  outside : ∀ i < 32, (∀ pos ∈ ops, ¬ (pos ≤ i ∧ i < pos + 5)) → word'.getLsbD i = word.getLsbD i

variable (word) in
/-- The loops replace the fields of `ops` for any two registers exactly when they visit these. -/
theorem replaces_iff (hl : ∀ p ∈ l, p ∈ positions) (hops : ∀ p ∈ ops, p ∈ positions) :
    (∀ oldReg newReg, Replaces ops oldReg newReg word (l.foldl (replaceAt oldReg newReg) word)) ↔ ∀ pos, pos ∈ l ↔ pos ∈ ops := by
  constructor
  · intro h pos
    -- a register that is in the field, and another one
    have hne : field word pos + 1 ≠ field word pos := by simp
    have hreplaced := h (field word pos) (field word pos + 1)
    constructor
    · intro hpos
      by_contra hnot
      refine hne (Eq.trans ?_ (field_congr fun i hi hi' => hreplaced.outside i ?_ fun p hp => ?_))
      · rw [field_foldl_replaceAt hl (hl pos hpos), if_pos ⟨hpos, rfl⟩]
      · have hlt := le_of_mem_positions pos (hl pos hpos)
        omega
      · have hdisjoint := disjoint_of_ne pos (hl pos hpos) p (hops p hp) fun heq => hnot (heq ▸ hp)
        omega
    · intro hpos
      by_contra hnot
      refine hne ?_
      have hfield := hreplaced.field_eq pos hpos
      rw [field_foldl_replaceAt hl (hops pos hpos), if_neg fun h => hnot h.1, if_pos rfl] at hfield
      exact hfield.symm
  · intro h oldReg newReg
    refine ⟨fun pos hpos => ?_, fun i hi hout => getLsbD_foldl_replaceAt hi fun p hp => hout p ((h p).1 hp)⟩
    rw [field_foldl_replaceAt hl (hops pos hpos)]
    simp only [(h pos).2 hpos, true_and]

end

/-! ## Objects that have decoded a word -/

/-- The bytes of a word, the lowest first. -/
def wordOf (bytes : Bytes) : BitVec 32 := bytes 3 ++ bytes 2 ++ bytes 1 ++ bytes 0

/-- The object after `decode`, and after any queries. -/
inductive Decoded (bytes : Bytes) : AARCH64RegBits → Prop
  | decode (s : AARCH64RegBits) : Decoded bytes (decode bytes s)
  | query {s : AARCH64RegBits} : Decoded bytes s → Decoded bytes (getRegPositionList s).2

section

variable {bytes : Bytes} {s : AARCH64RegBits}

theorem getLsbD_wordOf (bytes : Bytes) (i : Nat) : (wordOf bytes).getLsbD i =
    if i < 8 then (bytes 0).getLsbD i else if i - 8 < 8 then (bytes 1).getLsbD (i - 8)
    else if i - 8 - 8 < 8 then (bytes 2).getLsbD (i - 8 - 8) else (bytes 3).getLsbD (i - 8 - 8 - 8) := by
  change (bytes 3 ++ bytes 2 ++ bytes 1 ++ bytes 0 : BitVec (8 + 8 + 8 + 8)).getLsbD i = _
  simp only [BitVec.getLsbD_append, cond_eq_ite, decide_eq_true_eq]

theorem getElem_wordOf (bytes : Bytes) {i : Nat} (hi : i < 32) : (wordOf bytes)[i] =
    if i < 8 then (bytes 0).getLsbD i else if i - 8 < 8 then (bytes 1).getLsbD (i - 8)
    else if i - 8 - 8 < 8 then (bytes 2).getLsbD (i - 8 - 8) else (bytes 3).getLsbD (i - 8 - 8 - 8) := by
  rw [← getLsbD_wordOf, BitVec.getLsbD_eq_getElem hi]

theorem bin_decode (bytes : Bytes) (s : AARCH64RegBits) : (decode bytes s).bin = wordOf bytes := by
  refine BitVec.eq_of_getLsbD_eq fun i hi => ?_
  rw [getLsbD_wordOf]
  interval_cases i <;> simp [decode, invalidateCache]

/-- A list is cached only if it is that of the word. -/
theorem Decoded.cached (h : Decoded bytes s) : s.bin = wordOf bytes ∧
    (s.cached = true ∧ s.list = regPositions (wordOf bytes) ∨ s.cached = false ∧ s.list = ⟨[], []⟩) := by
  induction h with
  | decode s => exact ⟨bin_decode bytes s, Or.inr ⟨rfl, rfl⟩⟩
  | @query s _ ih =>
    obtain ⟨hbin, ⟨hcached, hlist⟩ | ⟨hcached, hlist⟩⟩ := ih
    · have hquery : getRegPositionList s = (s.list, s) := by rw [getRegPositionList, if_pos hcached]
      rw [hquery]
      exact ⟨hbin, Or.inl ⟨hcached, hlist⟩⟩
    · obtain ⟨bin, cached, list⟩ := s
      simp only at hbin hcached hlist
      subst hbin hcached hlist
      simp only [regPositions, getRegPositionList, Bool.false_eq_true, if_false]
      split_ifs <;> simp

theorem Decoded.getRegPositionList_eq (h : Decoded bytes s) :
    (getRegPositionList s).1 = regPositions (wordOf bytes) ∧ (getRegPositionList s).2.bin = wordOf bytes := by
  refine ⟨?_, h.query.cached.1⟩
  obtain ⟨hbin, ⟨hcached, hlist⟩ | ⟨hcached, hlist⟩⟩ := h.cached
  · rw [getRegPositionList, if_pos hcached, hlist]
  · obtain ⟨bin, cached, list⟩ := s
    simp only at hbin hcached hlist
    subst hbin hcached hlist
    rfl

theorem Decoded.encode_eq (h : Decoded bytes s) : encode s = bytes := by
  rw [encode, h.cached.1]
  funext i
  fin_cases i <;>
    · refine BitVec.eq_of_getLsbD_eq fun k hk => ?_
      interval_cases k <;> simp [getElem_wordOf]

end

/-! ## What should be found -/

/-- The object reports and replaces the registers of the instruction. -/
structure Correct (c : InstructionClass) (bytes : Bytes) : Prop where
  encode : ∀ s, Decoded bytes s → encode s = bytes
  replaceRegister : ∀ s, Decoded bytes s → ∀ oldReg newReg,
    Replaces c.operands oldReg newReg (wordOf bytes) (replaceRegister oldReg newReg s).bin
  isReading : ∀ s, Decoded bytes s → ∀ reg, (isReading reg s).1 = true ↔ c.Reads (wordOf bytes) reg
  isWriting : ∀ s, Decoded bytes s → ∀ reg, (isWriting reg s).1 = true ↔ c.Writes (wordOf bytes) reg

/-- The positions are those of the registers of the instruction. -/
structure Agrees (list : RegPositionsList) (c : InstructionClass) (word : BitVec 32) : Prop where
  operands : ∀ pos, pos ∈ list.first ++ list.second ↔ pos ∈ c.operands
  reads : ∀ reg, (∃ pos ∈ list.first, field word pos = reg) ↔ c.Reads word reg
  writes : ∀ reg, (∃ pos ∈ list.second, field word pos = reg) ↔ c.Writes word reg

section

variable {c : InstructionClass} {word : BitVec 32} {list : RegPositionsList} {bytes : Bytes}

theorem any_field {l : List Nat} {bin : BitVec 32} {reg : Register} :
    (l.any fun pos => bin >>> pos &&& regMask = reg.setWidth 32) = true ↔ ∃ pos ∈ l, field bin pos = reg := by
  simp only [List.any_eq_true, shiftRight_and_regMask, setWidth_inj, decide_eq_true_eq]

theorem bin_replaceRegister {s : AARCH64RegBits} (h : Decoded bytes s) (oldReg newReg : Register) :
    (replaceRegister oldReg newReg s).bin =
      ((regPositions (wordOf bytes)).first ++ (regPositions (wordOf bytes)).second).foldl (replaceAt oldReg newReg) (wordOf bytes) := by
  obtain ⟨hlist, hbin⟩ := h.getRegPositionList_eq
  simp only [replaceRegister, invalidateCache, hlist, hbin, List.foldl_append]

theorem mem_positions_of_mem_regPositions (word : BitVec 32) :
    ∀ pos ∈ (regPositions word).first ++ (regPositions word).second, pos ∈ positions := by
  have hresults : ∀ list ∈ questions.results, ∀ pos ∈ list.first ++ list.second, pos ∈ positions := by decide
  rw [← eval_questions]
  exact hresults _ (Decision.eval_mem_results questions)

theorem correct_iff_agrees : Correct c bytes ↔ Agrees (regPositions (wordOf bytes)) c (wordOf bytes) := by
  have hlist := mem_positions_of_mem_regPositions (wordOf bytes)
  have hread : ∀ s, Decoded bytes s → ∀ reg, (isReading reg s).1 = true ↔ ∃ pos ∈ (regPositions (wordOf bytes)).first,
      field (wordOf bytes) pos = reg := by
    intro s hs reg
    obtain ⟨hlist, hbin⟩ := hs.getRegPositionList_eq
    simp only [isReading, hlist, hbin]
    exact any_field
  have hwrite : ∀ s, Decoded bytes s → ∀ reg, (isWriting reg s).1 = true ↔ ∃ pos ∈ (regPositions (wordOf bytes)).second,
      field (wordOf bytes) pos = reg := by
    intro s hs reg
    obtain ⟨hlist, hbin⟩ := hs.getRegPositionList_eq
    simp only [isWriting, hlist, hbin]
    exact any_field
  have hdecoded : Decoded bytes _ := Decoded.decode ⟨0, false, ⟨[], []⟩⟩
  constructor
  · intro h
    refine ⟨(replaces_iff (wordOf bytes) hlist c.mem_positions).1 fun oldReg newReg => ?_, fun reg => ?_, fun reg => ?_⟩
    · rw [← bin_replaceRegister hdecoded]
      exact h.replaceRegister _ hdecoded oldReg newReg
    · rw [← hread _ hdecoded, h.isReading _ hdecoded]
    · rw [← hwrite _ hdecoded, h.isWriting _ hdecoded]
  · intro h
    refine ⟨fun s hs => hs.encode_eq, fun s hs oldReg newReg => ?_, fun s hs reg => ?_, fun s hs reg => ?_⟩
    · rw [bin_replaceRegister hs]
      exact (replaces_iff (wordOf bytes) hlist c.mem_positions).2 h.operands oldReg newReg
    · rw [hread s hs, h.reads]
    · rw [hwrite s hs, h.writes]

/-! ### When the positions are those of the registers -/

theorem agrees_of_eq (hreads : list.first = c.reads) (hwrites : list.second = c.writes) (hlinks : c.links = false) :
    Agrees list c word := by
  refine ⟨fun pos => ?_, fun reg => ?_, fun reg => ?_⟩
  · rw [hreads, hwrites, InstructionClass.operands]
  · rw [hreads, InstructionClass.Reads]
  · rw [hwrites, InstructionClass.Writes, hlinks]
    simp

theorem agrees_of_results (hresults : ∀ list ∈ (questionsLeft c).results, list.first = c.reads ∧ list.second = c.writes)
    (hlinks : c.links = false) : Agrees ((questionsLeft c).eval word) c word :=
  have hlist := hresults _ (Decision.eval_mem_results _)
  agrees_of_eq hlist.1 hlist.2 hlinks

theorem not_agrees_of_results (hresults : ∀ list ∈ (questionsLeft c).results,
    ∃ pos ∈ positions, ¬ (pos ∈ list.first ++ list.second ↔ pos ∈ c.operands)) : ¬ Agrees ((questionsLeft c).eval word) c word := by
  obtain ⟨pos, -, hpos⟩ := hresults _ (Decision.eval_mem_results _)
  exact fun hagrees => hpos (hagrees.operands pos)

theorem not_agrees_of_reads (hfirst : list.first = []) (hreads : c.reads ≠ []) : ¬ Agrees list c word := by
  intro h
  obtain ⟨pos, hpos⟩ := List.exists_mem_of_ne_nil _ hreads
  obtain ⟨pos', hpos', -⟩ := (h.reads (field word pos)).2 ⟨pos, hpos, rfl⟩
  rw [hfirst] at hpos'
  cases hpos'

theorem not_agrees_of_writes (hsecond : list.second = []) (hwrites : c.writes ≠ []) : ¬ Agrees list c word := by
  intro h
  obtain ⟨pos, hpos⟩ := List.exists_mem_of_ne_nil _ hwrites
  obtain ⟨pos', hpos', -⟩ := (h.writes (field word pos)).2 (Or.inl ⟨pos, hpos, rfl⟩)
  rw [hsecond] at hpos'
  cases hpos'

theorem not_agrees_of_links (hsecond : list.second = []) (hlinks : c.links = true) : ¬ Agrees list c word := by
  intro h
  obtain ⟨pos, hpos, -⟩ := (h.writes linkRegister).2 (Or.inr ⟨hlinks, rfl⟩)
  rw [hsecond] at hpos
  cases hpos

theorem not_agrees_of_no_writes (hsecond : list.second ≠ []) (hwrites : c.writes = []) (hlinks : c.links = false) :
    ¬ Agrees list c word := by
  intro h
  obtain ⟨pos, hpos⟩ := List.exists_mem_of_ne_nil _ hsecond
  rcases (h.writes (field word pos)).1 ⟨pos, hpos, rfl⟩ with ⟨pos', hpos', -⟩ | ⟨hlinks', -⟩
  · rw [hwrites] at hpos'
    cases hpos'
  · rw [hlinks] at hlinks'
    cases hlinks'

/-- Where one side has both of two fields and the other has one of them, the fields must be equal. -/
theorem agrees_iff_field_eq (hfound : ∀ pos ∈ list.first ++ list.second, pos ∈ c.operands)
    (hoperands : ∀ pos ∈ c.operands, pos ∈ list.first ++ list.second) (hlinks : c.links = false)
    (hreads : list.first = c.reads ∨ list.first = [5] ∧ c.reads = [0, 5] ∨ list.first = [0, 5] ∧ c.reads = [5])
    (hwrites : list.second = c.writes ∨ list.second = [5] ∧ c.writes = [0, 5] ∨ list.second = [0, 5] ∧ c.writes = [5])
    (hne : list.first ≠ c.reads) : Agrees list c word ↔ field word 0 = field word 5 := by
  have hpair : ∀ {l l' : List Nat}, l = l' ∨ l = [5] ∧ l' = [0, 5] ∨ l = [0, 5] ∧ l' = [5] → field word 0 = field word 5 →
      ∀ reg, (∃ pos ∈ l, field word pos = reg) ↔ ∃ pos ∈ l', field word pos = reg := by
    rintro l l' (rfl | ⟨rfl, rfl⟩ | ⟨rfl, rfl⟩) hfield reg
    · exact Iff.rfl
    · simp [hfield]
    · simp [hfield]
  constructor
  · intro h
    rcases hreads with heq | ⟨hfirst, hreads⟩ | ⟨hfirst, hreads⟩
    · exact absurd heq hne
    · have := (h.reads (field word 0)).2 ⟨0, by rw [hreads]; decide, rfl⟩
      rw [hfirst] at this
      simpa [eq_comm] using this
    · have := (h.reads (field word 0)).1 ⟨0, by rw [hfirst]; decide, rfl⟩
      rw [InstructionClass.Reads, hreads] at this
      simpa [eq_comm] using this
  · intro hfield
    refine ⟨fun pos => ⟨hfound pos, hoperands pos⟩, hpair hreads hfield, fun reg => ?_⟩
    rw [hpair hwrites hfield reg, InstructionClass.Writes, hlinks]
    simp

variable (word) in
/-- The `switch` statements are about the low bits of the word, and take it for a load. -/
def TakenForLoad : Prop := word &&& 7 = 1 ∨ word &&& 7 = 2 ∨ word &&& 7 = 3 ∨ word &&& 7 = 5 ∨ word &&& 7 = 7

instance : Decidable (TakenForLoad word) := inferInstanceAs (Decidable (_ ∨ _))

theorem eval_loadCases {yes no : RegPositionsList} : (Decision.any loadCases (.result yes) (.result no)).eval word =
    if TakenForLoad word then yes else no := by
  have hiff : (∃ p ∈ loadCases, p.Matches word) ↔ TakenForLoad word := by
    simp only [loadCases, List.mem_cons, List.not_mem_nil, or_false, exists_eq_or_imp, exists_eq_left, Pattern.Matches, TakenForLoad]
  rw [Decision.eval_any]
  simp only [hiff, Decision.eval]

variable (word) in
/-- The words of a class whose registers are found: no exclusive, prefetch or SIMD access, and of the loads and stores of
one register those that the `switch` takes for what they are. -/
def IsReported : InstructionClass → Prop
  | .bitfieldInsert => field word 0 = field word 5
  | .msr => word &&& 0x00180000 = 0x00180000
  | .compareAndBranch => word &&& 0xFE000000 = 0x34000000
  | .loadPair addressing => addressing ≠ .noAllocate
  | .store .post | .store .pre => ¬ TakenForLoad word ∨ field word 0 = field word 5
  | .store .unsigned => word &&& 0x3B000C00 = 0x39000000 ∧ ¬ TakenForLoad word
  | .store _ => ¬ TakenForLoad word
  | .load .post | .load .pre => TakenForLoad word ∨ field word 0 = field word 5
  | .load .unsigned => word &&& 0x3B000C00 = 0x39000000 ∧ TakenForLoad word
  | .load _ => TakenForLoad word
  | .moveKeep | .branchLink | .branchLinkRegister | .exceptionReturn | .storeExclusive | .storeExclusivePair | .loadExclusive
  | .loadExclusivePair | .storeRelease | .loadAcquire | .simdMultiple | .simdMultiplePost | .simdMultiplePostImmediate
  | .simdSingle | .simdSinglePost | .simdSinglePostImmediate | .prefetchLiteral | .simdPair _ | .prefetch _ | .simd _
  | .conditionalCompareRegister | .oneSource | .threeSource | .multiplyHigh | .toGeneral | .fromGeneral => False
  | _ => True

theorem agrees_store (addressing : Addressing) :
    Agrees ((questionsLeft (.store addressing)).eval word) (.store addressing) word ↔ IsReported word (.store addressing) := by
  cases addressing with
  | unscaled | unprivileged | register =>
    rw [questionsLeft, eval_loadCases]
    split_ifs with hload
    · exact iff_of_false (not_agrees_of_no_writes (by decide) rfl rfl) (not_not.2 hload)
    · exact iff_of_true (agrees_of_eq rfl rfl rfl) hload
  | post | pre =>
    rw [questionsLeft, eval_loadCases]
    split_ifs with hload
    · rw [agrees_iff_field_eq (by decide) (by decide) rfl (by decide) (by decide) (by decide)]
      exact (or_iff_right (not_not.2 hload)).symm
    · exact iff_of_true (agrees_of_eq rfl rfl rfl) (Or.inl hload)
  | unsigned =>
    rw [questionsLeft, Decision.eval, eval_loadCases]
    split_ifs with hmatches hload
    · exact iff_of_false (not_agrees_of_no_writes (by decide) rfl rfl) (fun h => h.2 hload)
    · exact iff_of_true (agrees_of_eq rfl rfl rfl) ⟨hmatches, hload⟩
    · exact iff_of_false (not_agrees_of_reads rfl (by decide)) (fun h => hmatches h.1)

theorem agrees_load (addressing : Addressing) :
    Agrees ((questionsLeft (.load addressing)).eval word) (.load addressing) word ↔ IsReported word (.load addressing) := by
  cases addressing with
  | unscaled | unprivileged | register =>
    rw [questionsLeft, eval_loadCases]
    split_ifs with hload
    · exact iff_of_true (agrees_of_eq rfl rfl rfl) hload
    · exact iff_of_false (not_agrees_of_writes rfl (by decide)) hload
  | post | pre =>
    rw [questionsLeft, eval_loadCases]
    split_ifs with hload
    · exact iff_of_true (agrees_of_eq rfl rfl rfl) (Or.inl hload)
    · rw [agrees_iff_field_eq (by decide) (by decide) rfl (by decide) (by decide) (by decide)]
      exact (or_iff_right hload).symm
  | unsigned =>
    rw [questionsLeft, Decision.eval, eval_loadCases]
    split_ifs with hmatches hload
    · exact iff_of_true (agrees_of_eq rfl rfl rfl) ⟨hmatches, hload⟩
    · exact iff_of_false (not_agrees_of_writes rfl (by decide)) (fun h => hload h.2)
    · exact iff_of_false (not_agrees_of_reads rfl (by decide)) (fun h => hmatches h.1)

theorem agrees_iff : Agrees ((questionsLeft c).eval word) c word ↔ IsReported word c := by
  cases c with
  | moveKeep => exact iff_of_false (not_agrees_of_reads rfl (by decide)) id
  | branchLink | branchLinkRegister => exact iff_of_false (not_agrees_of_links rfl rfl) id
  | prefetchLiteral | conditionalCompareRegister | toGeneral | exceptionReturn | storeExclusive | storeExclusivePair | loadExclusive
  | loadExclusivePair | storeRelease | loadAcquire | simdMultiple | simdMultiplePost | simdMultiplePostImmediate | simdSingle
  | simdSinglePost | simdSinglePostImmediate | threeSource | multiplyHigh | fromGeneral | oneSource =>
    exact iff_of_false (not_agrees_of_results (by decide)) id
  | simdPair addressing => exact iff_of_false (not_agrees_of_results (by cases addressing <;> decide)) id
  | prefetch addressing => exact iff_of_false (not_agrees_of_results (by cases addressing <;> decide)) id
  | simd addressing => exact iff_of_false (not_agrees_of_results (by cases addressing <;> decide)) id
  | storePair addressing => exact iff_of_true (agrees_of_results (by cases addressing <;> decide) rfl) trivial
  | loadPair addressing =>
    cases addressing with
    | noAllocate => exact iff_of_false (not_agrees_of_results (by decide)) (fun h => h rfl)
    | post | offset | pre => exact iff_of_true (agrees_of_results (by decide) rfl) (by rintro ⟨⟩)
  | bitfieldInsert =>
    rw [questionsLeft, Decision.eval]
    exact agrees_iff_field_eq (by decide) (by decide) rfl (by decide) (by decide) (by decide)
  | msr | compareAndBranch =>
    rw [questionsLeft, Decision.eval]
    split_ifs with hmatches
    · exact iff_of_true (agrees_of_eq rfl rfl rfl) hmatches
    · exact iff_of_false (not_agrees_of_reads rfl (by decide)) hmatches
  | store addressing => exact agrees_store addressing
  | load addressing => exact agrees_load addressing
  | _ => exact iff_of_true (agrees_of_results (by decide) rfl) trivial

/-- The registers of a word of a class are reported and replaced exactly under its condition. -/
theorem correct_iff_isReported (h : c.Matches (wordOf bytes)) : Correct c bytes ↔ IsReported (wordOf bytes) c := by
  rw [correct_iff_agrees, regPositions_eq h, agrees_iff]

end

/-- `add x0, x1, x2` -/
def addBytes : Bytes := ![0x20, 0x00, 0x02, 0x8B]

theorem correct_addBytes : InstructionClass.addSubShifted.Matches (wordOf addBytes) ∧
    (Correct .addSubShifted addBytes ↔ IsReported (wordOf addBytes) .addSubShifted) := by
  have hmatches : InstructionClass.addSubShifted.Matches (wordOf addBytes) := by decide
  exact ⟨hmatches, correct_iff_isReported hmatches⟩

/-- `ldr x0, [x1]` -/
def ldrBytes : Bytes := ![0x20, 0x00, 0x40, 0xF9]

/-- The register that is loaded is reported as one that is read. -/
theorem not_correct_ldrBytes : (InstructionClass.load .unsigned).Matches (wordOf ldrBytes) ∧ ¬ Correct (.load .unsigned) ldrBytes := by
  have hmatches : (InstructionClass.load .unsigned).Matches (wordOf ldrBytes) := by decide
  refine ⟨hmatches, ?_⟩
  rw [correct_iff_agrees, regPositions_eq hmatches, agrees_iff]
  exact fun h => absurd h.2 (by decide)

end Egalito.RegBits
