import Egalito.Disasm.MakeSemantic
import Egalito.Lib.Field
import Mathlib
/-!
# Writing linked instructions

The two writers of `instr/linked-x86_64.cpp`, into memory and at the end of a
string, for instructions with an assembly and for control flow instructions.
The first put the displacement where `MakeSemantic` has found it.
-/

open Egalito.Lib Egalito.Serializer Egalito.MakeSemantic

namespace Egalito.LinkedInstruction

/-- What the writers read of a link. -/
structure LinkTarget where
  address : UInt64
  isRIPRelative : Bool

/-- `calculateDisplacement` for an instruction of `size` bytes at `address`. -/
def calculateDisplacement (size : Nat) (address : UInt64) (link : LinkTarget) : UInt64 :=
  if link.isRIPRelative then link.address - (address + UInt64.ofNat size) else link.address

/-- The bytes of a `LinkedInstructionBase`, and its displacement info. -/
structure LinkedInstructionBase where
  bytes : List UInt8
  displacementSize : Nat
  displacementOffset : Nat

namespace LinkedInstructionBase

/-- `setIndex`, with `makeDisplacementInfo`. -/
def setIndex (disasm : Disasm) (bytes : List UInt8) (opIndex : Nat) : LinkedInstructionBase where
  bytes := bytes
  displacementSize := disasm.determineDisplacementSize bytes (UInt8.ofNat opIndex)
  displacementOffset := disasm.getDispOffset bytes (UInt8.ofNat opIndex)

variable (l : LinkedInstructionBase) (address : UInt64) (link : LinkTarget)

/-- `writeTo(char *)`, with `useDisp`. -/
def writeToMemory (mem : Nat → UInt8) (target : Nat) : Nat → UInt8 :=
  let newDisp := calculateDisplacement l.bytes.length address link
  let mem := copyTo mem target (l.bytes.take l.displacementOffset)
  let i := l.displacementOffset
  let mem := copyTo mem (target + i) (leBytes l.displacementSize newDisp.toNat)
  let i := i + l.displacementSize
  copyTo mem (target + i) ((l.bytes.drop i).take (l.bytes.length - l.displacementSize - l.displacementOffset))

/-- `writeTo(std::string &)`. -/
def writeToString (target : List UInt8) : List UInt8 :=
  let newDisp := calculateDisplacement l.bytes.length address link
  let target := target ++ l.bytes.take l.displacementOffset
  let target := target ++ leBytes l.displacementSize newDisp.toNat
  target ++ (l.bytes.drop (l.displacementOffset + l.displacementSize)).take
    (l.bytes.length - l.displacementSize - l.displacementOffset)

end LinkedInstructionBase

structure ControlFlowInstructionBase where
  opcode : List UInt8
  displacementSize : Nat

namespace ControlFlowInstructionBase

variable (cf : ControlFlowInstructionBase) (address : UInt64) (link : LinkTarget)

def getSize : Nat := cf.opcode.length + cf.displacementSize

/-- `writeTo(char *)`. -/
def writeToMemory (mem : Nat → UInt8) (target : Nat) : Nat → UInt8 :=
  let mem := copyTo mem target cf.opcode
  let disp := calculateDisplacement cf.getSize address link
  copyTo mem (target + cf.opcode.length) (leBytes cf.displacementSize disp.toNat)

/-- `writeTo(std::string &)`. -/
def writeToString (target : List UInt8) : List UInt8 :=
  let target := target ++ cf.opcode
  let disp := calculateDisplacement cf.getSize address link
  target ++ leBytes cf.displacementSize disp.toNat

end ControlFlowInstructionBase

/-! ## Instructions -/

/-- An instruction of the disassembler that is linked by operand `opIndex`, which has a field. -/
structure LinkedOperand where
  encoding : Encoding
  disasm : Disasm
  reported : encoding.ReportedBy disasm
  opIndex : Nat
  field : Field
  field_eq : encoding.field opIndex = some field

/-- A control flow instruction with the displacement that it was decoded with. -/
structure DirectJump where
  opcode : List UInt8
  disp : List UInt8
  disp_le : disp.length ≤ 8

inductive Instruction
  | linked (operand : LinkedOperand)
  | controlFlow (jump : DirectJump)

namespace Instruction

def original : Instruction → List UInt8
  | linked o => o.encoding.bytes
  | controlFlow j => j.opcode ++ j.disp

/-- Where the field is that the link belongs to. -/
def fieldOffset : Instruction → Nat
  | linked o => o.encoding.fieldOffset o.opIndex
  | controlFlow j => j.opcode.length

def fieldSize : Instruction → Nat
  | linked o => o.field.size
  | controlFlow j => j.disp.length

def writeToMemory : Instruction → UInt64 → LinkTarget → (Nat → UInt8) → Nat → Nat → UInt8
  | linked o => (LinkedInstructionBase.setIndex o.disasm o.encoding.bytes o.opIndex).writeToMemory
  | controlFlow j => (ControlFlowInstructionBase.mk j.opcode j.disp.length).writeToMemory

def writeToString : Instruction → UInt64 → LinkTarget → List UInt8 → List UInt8
  | linked o => (LinkedInstructionBase.setIndex o.disasm o.encoding.bytes o.opIndex).writeToString
  | controlFlow j => (ControlFlowInstructionBase.mk j.opcode j.disp.length).writeToString

/-- What the field of an encoding at `address` refers to. -/
def decode (ins : Instruction) (address : UInt64) (isRIPRelative : Bool) (bytes : List UInt8) : UInt64 :=
  UInt64.ofInt (leInt ((bytes.drop ins.fieldOffset).take ins.fieldSize)) +
    if isRIPRelative then address + UInt64.ofNat bytes.length else 0

/-- For all addresses and links the two writers give the same bytes, which differ from the original ones in the field
only, and the field refers to the target when the difference fits into it. -/
def WritesLink (ins : Instruction) : Prop := ∀ address link, ∃ out : List UInt8,
  (∀ mem target, ins.writeToMemory address link mem target = copyTo mem target out) ∧
  (∀ text, ins.writeToString address link text = text ++ out) ∧
  out.length = ins.original.length ∧
  (∀ k, k < ins.fieldOffset ∨ ins.fieldOffset + ins.fieldSize ≤ k → out[k]? = ins.original[k]?) ∧
  ∀ z, FitsBytes ins.fieldSize z → calculateDisplacement ins.original.length address link = UInt64.ofInt z →
    ins.decode address link.isRIPRelative out = link.address

end Instruction

/-! ## What is written -/

section Written

variable {l : LinkedInstructionBase} {cf : ControlFlowInstructionBase} {address : UInt64} {link : LinkTarget}

/-- The bytes with the displacement in its place. -/
def LinkedInstructionBase.written (l : LinkedInstructionBase) (address : UInt64) (link : LinkTarget) : List UInt8 :=
  setAt l.bytes l.displacementOffset
    (leBytes l.displacementSize (calculateDisplacement l.bytes.length address link).toNat)

def ControlFlowInstructionBase.written (cf : ControlFlowInstructionBase) (address : UInt64) (link : LinkTarget) :
    List UInt8 :=
  cf.opcode ++ leBytes cf.displacementSize (calculateDisplacement cf.getSize address link).toNat

theorem take_rest (l : LinkedInstructionBase) :
    (l.bytes.drop (l.displacementOffset + l.displacementSize)).take
      (l.bytes.length - l.displacementSize - l.displacementOffset) =
      l.bytes.drop (l.displacementOffset + l.displacementSize) :=
  List.take_of_length_le (by rw [List.length_drop]; omega)

theorem linked_writeToMemory (hinside : l.displacementOffset ≤ l.bytes.length) (mem : Nat → UInt8) (target : Nat) :
    l.writeToMemory address link mem target = copyTo mem target (l.written address link) := by
  have hlen : (l.bytes.take l.displacementOffset).length = l.displacementOffset := by
    rw [List.length_take]
    omega
  have h₁ := copyTo_append mem target (l.bytes.take l.displacementOffset)
    (leBytes l.displacementSize (calculateDisplacement l.bytes.length address link).toNat)
  have h₂ := copyTo_append mem target (l.bytes.take l.displacementOffset ++
    leBytes l.displacementSize (calculateDisplacement l.bytes.length address link).toNat)
    (l.bytes.drop (l.displacementOffset + l.displacementSize))
  rw [hlen] at h₁
  rw [List.length_append, hlen, length_leBytes] at h₂
  unfold LinkedInstructionBase.writeToMemory LinkedInstructionBase.written setAt
  simp only [take_rest]
  rw [h₁, h₂, List.append_assoc, length_leBytes]

theorem linked_writeToString (text : List UInt8) :
    l.writeToString address link text = text ++ l.written address link := by
  unfold LinkedInstructionBase.writeToString LinkedInstructionBase.written setAt
  simp only [take_rest, length_leBytes, List.append_assoc]

theorem controlFlow_writeToMemory (mem : Nat → UInt8) (target : Nat) :
    cf.writeToMemory address link mem target = copyTo mem target (cf.written address link) :=
  copyTo_append mem target cf.opcode _

theorem controlFlow_writeToString (text : List UInt8) :
    cf.writeToString address link text = text ++ cf.written address link := List.append_assoc ..

/-- A displacement that fits refers to the target, from behind the instruction if it is relative. -/
theorem decode_displacement {size n : Nat} {z : Int} (hn : n ≤ 8) (hfits : FitsBytes n z)
    (hz : calculateDisplacement size address link = UInt64.ofInt z) :
    UInt64.ofInt (leInt (leBytes n (calculateDisplacement size address link).toNat)) +
      (if link.isRIPRelative then address + UInt64.ofNat size else 0) = link.address := by
  rw [leInt_leBytes hn hfits hz, ← hz]
  unfold calculateDisplacement
  split_ifs
  · exact UInt64.sub_add_cancel ..
  · exact UInt64.add_zero _

end Written

/-! ## Where the field is found -/

section Exact

variable {o : LinkedOperand}

/-- The operand has a field of its own in the last bytes, or it is the displacement and is not taken for them. -/
def LinkedOperand.Found (o : LinkedOperand) : Prop :=
  o.encoding.operands[o.opIndex]? = some .imm ∨ ¬ o.encoding.Repeats

def Instruction.Found : Instruction → Prop
  | .linked o => o.Found
  | .controlFlow _ => True

/-- The displacement info that the constructor stores. -/
def LinkedOperand.base (o : LinkedOperand) : LinkedInstructionBase :=
  LinkedInstructionBase.setIndex o.disasm o.encoding.bytes o.opIndex

theorem base_displacementSize (o : LinkedOperand) : o.base.displacementSize = o.field.size :=
  o.reported.size o.opIndex o.field o.field_eq

theorem findDisp_le_start (bytes : List UInt8) (size : Nat) (value : UInt64) (start : Nat) :
    findDisp bytes size value start ≤ start := by
  refine findDisp_le fun k hk hle => ?_
  omega

theorem base_displacementOffset (o : LinkedOperand) :
    o.encoding.fieldOffset o.opIndex ≤ o.base.displacementOffset ∧
      o.base.displacementOffset + o.field.size ≤ o.encoding.bytes.length := by
  have hinside := (take_field o.field_eq).2
  have hoffset : o.base.displacementOffset = findDisp o.encoding.bytes o.field.size o.field.value
      (o.encoding.bytes.length - o.field.size) := getDispOffset_field o.reported o.field_eq
  have hle := findDisp_le_start o.encoding.bytes o.field.size o.field.value (o.encoding.bytes.length - o.field.size)
  have hge := le_findDisp (Nat.le_sub_of_add_le hinside) (take_field o.field_eq).1
  rw [hoffset]
  omega

theorem found_iff (o : LinkedOperand) : o.Found ↔ o.base.displacementOffset = o.encoding.fieldOffset o.opIndex := by
  rcases operand_of_field o.field_eq with ⟨hop, hdisp⟩ | ⟨hop, himm⟩
  · refine Iff.trans ?_ (getDispOffset_mem_iff o.reported hop hdisp).symm
    rw [LinkedOperand.Found, hop]
    exact or_iff_right (by decide)
  · exact iff_of_true (.inl hop) (getDispOffset_imm o.reported hop himm)

theorem length_written (o : LinkedOperand) (address : UInt64) (link : LinkTarget) :
    (o.base.written address link).length = o.encoding.bytes.length := by
  refine length_setAt ?_
  rw [length_leBytes, base_displacementSize]
  exact (base_displacementOffset o).2

/-- The two writers agree wherever the displacement is put. -/
theorem linked_writers (o : LinkedOperand) (address : UInt64) (link : LinkTarget) :
    (∀ mem target, (Instruction.linked o).writeToMemory address link mem target =
      copyTo mem target (o.base.written address link)) ∧
    ∀ text, (Instruction.linked o).writeToString address link text = text ++ o.base.written address link := by
  have hinside := (base_displacementOffset o).2
  exact ⟨fun mem target => linked_writeToMemory (Nat.le_of_add_right_le hinside) mem target,
    fun text => linked_writeToString text⟩

theorem writesLink_of_found (h : o.Found) : (Instruction.linked o).WritesLink := by
  intro address link
  obtain ⟨hmem, hstring⟩ := linked_writers o address link
  have hoffset := (found_iff o).1 h
  have hsize := base_displacementSize o
  have hinside := (base_displacementOffset o).2
  have hlen : ∀ v, (leBytes o.base.displacementSize v).length = o.field.size := fun v => by
    rw [length_leBytes, hsize]
  refine ⟨_, hmem, hstring, length_written o address link, fun k hk => ?_, fun z hz hdisp => ?_⟩
  · refine getElem?_setAt_outside ?_ ?_
    · rw [hlen]
      exact hinside
    · rw [hlen, hoffset]
      exact hk
  · have htake : ((o.base.written address link).drop o.base.displacementOffset).take (leBytes _ _).length = leBytes _ _ :=
      take_drop_setAt (Nat.le_of_add_right_le hinside)
    rw [hlen, hoffset] at htake
    rw [Instruction.decode, length_written]
    refine Eq.trans (congrArg (fun bs => UInt64.ofInt (leInt bs) + _) htake) ?_
    rw [hsize]
    exact decode_displacement o.field.size_le hz hdisp

/-- A displacement that is put elsewhere changes the byte behind the field. -/
theorem found_of_writesLink (h : (Instruction.linked o).WritesLink) : o.Found := by
  by_contra hfound
  obtain ⟨hge, hinside⟩ := base_displacementOffset o
  have hne := mt (found_iff o).2 hfound
  have hpos := o.field.size_pos
  have hlast : ∀ target : UInt64, UInt8.ofNat (target.toNat / 256 ^ (o.field.size - 1)) ∈
      o.encoding.bytes[o.base.displacementOffset + (o.field.size - 1)]? := by
    intro target
    obtain ⟨out, -, hstring, -, hsame, -⟩ := h 0 ⟨target, false⟩
    have hout : out = o.base.written 0 ⟨target, false⟩ :=
      (hstring []).symm.trans ((linked_writers o 0 ⟨target, false⟩).2 [])
    have hbehind : o.encoding.fieldOffset o.opIndex + o.field.size ≤ o.base.displacementOffset + (o.field.size - 1) := by
      omega
    have hlt : o.field.size - 1 < (leBytes o.base.displacementSize target.toNat).length := by
      rw [length_leBytes, base_displacementSize]
      omega
    have hbyte : out[o.base.displacementOffset + (o.field.size - 1)]? =
        (leBytes o.base.displacementSize target.toNat)[o.field.size - 1]? :=
      hout ▸ getElem?_setAt_inside (Nat.le_of_add_right_le hinside) hlt
    rw [length_leBytes] at hlt
    rw [getElem?_leBytes _ hlt] at hbyte
    exact (hsame _ (.inr hbehind)).symm.trans hbyte
  have hpow : (256 ^ (o.field.size - 1)) < 2 ^ 64 := by
    have hle : 256 ^ (o.field.size - 1) ≤ 256 ^ 7 := Nat.pow_le_pow_right (by decide) (by have := o.field.size_le; omega)
    omega
  have heq := Option.mem_unique (hlast 0) (hlast (UInt64.ofNat (256 ^ (o.field.size - 1))))
  rw [UInt64.toNat_ofNat_of_lt' hpow, Nat.div_self (by positivity)] at heq
  simp at heq

def sampleOperand : LinkedOperand where
  encoding := movl 0x10 0x10
  disasm := movlDisasm 0x10 0x10
  reported := movl_reported 0x10 0x10
  opIndex := 0
  field := ⟨4, 0x10, four_pos_size, four_le_size⟩
  field_eq := rfl

end Exact

end Egalito.LinkedInstruction
