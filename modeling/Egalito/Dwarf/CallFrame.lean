import Egalito.Dwarf.Operands
import Egalito.Lib.Machine
import Mathlib.Logic.Function.Basic
/-!
# The call frame machine

`parseInstructions` under the state of a CIE, as an FDE would have it, and the
machine of the DWARF standard: a row of register rules and a CFA rule, and a
stack of saved rows. Rows have a location too, which is not kept here.
-/

open Egalito.Lib

namespace Egalito.Dwarf

/-! ## The decoder -/

section Decoder

variable (f : EhFrame) (fuel : Nat) (cie : DecoderCIE) (initial : Option DwarfState)

/-- `state->set(reg, cie->getState()->get(reg))`, where a CIE has no state of its own yet. -/
def restoreRegister (d : DecoderState) (reg : BitVec 64) : Option DecoderState := do
  let data ← (← initial).get reg
  setRegister d reg data.type data.offset

def runPackedUnder (d : DecoderState) (opcode op : BitVec 64) : CursorM DecoderState :=
  if opcode = 0xc0 then restoreRegister initial d op else runPacked f cie d opcode op

def runInstructionUnder (d : DecoderState) : DwarfInstruction → CursorM DecoderState
  | .restoreExtended => do restoreRegister initial d (← nextUleb128 f)
  | instruction => runInstruction f fuel cie d instruction

/-- The loop up to the end of the entry. An unknown opcode ends it. -/
def runInstructionsUnder (stop : Address) : Nat → DecoderState → CursorM DwarfState
  | 0, _ => failure
  | rounds + 1, d => do
    if (← get).cursor < stop then
      let opcode ← next f 1
      if opcode &&& 0xc0 ≠ 0 then
        runInstructionsUnder stop rounds (← runPackedUnder f cie initial d (opcode &&& 0xc0) (opcode &&& 0x3f))
      else match instructionTable.lookup opcode.toNat with
        | some instruction => runInstructionsUnder stop rounds (← runInstructionUnder f fuel cie initial d instruction)
        | none => return d.state
    else return d.state

/-- `parseInstructions` from the state of the CIE. -/
def parseInstructionsUnder (start : DwarfCursor) (stop : Address) (cfaIp : BitVec 64) : Option DwarfState := do
  let (state, _) ← (runInstructionsUnder f fuel cie initial stop fuel ⟨initial.getD .empty, [], cfaIp⟩).run start
  return state

/-- One round of the loop; an unknown opcode moves the cursor to the end. -/
def decoderRound (stop : Address) (d : DecoderState) : CursorM DecoderState := do
  let opcode ← next f 1
  if opcode &&& 0xc0 ≠ 0 then runPackedUnder f cie initial d (opcode &&& 0xc0) (opcode &&& 0x3f)
  else match instructionTable.lookup opcode.toNat with
    | some instruction => runInstructionUnder f fuel cie initial d instruction
    | none => do
      modify fun c => { c with cursor := stop }
      return d

/-- The loop as a machine. -/
def decoderFrames (stop : Address) : Machine (DecoderState × DwarfCursor) where
  halted s := !decide (s.2.cursor < stop)
  step s := (decoderRound f fuel cie initial stop s.1).run s.2

end Decoder

/-- Without a state this is the decoder of a CIE. -/
theorem parseInstructionsUnder_none (f : EhFrame) (fuel : Nat) (cie : DecoderCIE) (start : DwarfCursor) (stop : Address) :
    parseInstructionsUnder f fuel cie none start stop 0 = parseInstructions f fuel cie start stop := by
  have hpacked : ∀ d opcode op, runPackedUnder f cie none d opcode op = runPacked f cie d opcode op := by
    intro d opcode op
    unfold runPackedUnder runPacked
    by_cases h : opcode = 0xc0
    · subst h
      rfl
    · rw [if_neg h]
  have hinstruction : ∀ d instruction, runInstructionUnder f fuel cie none d instruction =
      runInstruction f fuel cie d instruction := by
    intro d instruction
    cases instruction with
    | restoreExtended =>
      funext c
      change ((nextUleb128 f).run c >>= fun _ => none) = none
      cases (nextUleb128 f).run c <;> rfl
    | _ => rfl
  have hloop : ∀ rounds d, runInstructionsUnder f fuel cie none stop rounds d = runInstructions f fuel cie stop rounds d := by
    intro rounds
    induction rounds with
    | zero => exact fun _ => rfl
    | succ rounds ih =>
      intro d
      unfold runInstructionsUnder runInstructions
      refine bind_congr fun c => ?_
      by_cases hstop : c.cursor < stop
      · simp only [if_pos hstop]
        refine bind_congr fun opcode => ?_
        by_cases hopcode : opcode &&& 0xc0 ≠ 0
        · simp only [if_pos hopcode, hpacked, ih]
        · simp only [if_neg hopcode]
          cases instructionTable.lookup opcode.toNat with
          | none => rfl
          | some instruction => simp only [hinstruction, ih]
      · simp only [if_neg hstop]
  unfold parseInstructionsUnder parseInstructions
  rw [hloop]
  rfl

/-! ## The standard -/

/-- How a register is found again; an expression is known by the address of its block. -/
inductive RegisterRule
  | unspecified | undefined | sameValue
  | offset (n : BitVec 64) | valOffset (n : BitVec 64)
  | register (reg : BitVec 64)
  | expression (block : Address) | valExpression (block : Address)
deriving DecidableEq

inductive CfaRule
  | registerOffset (reg offset : BitVec 64)
  | expression (block : Address)
deriving DecidableEq

structure Row where
  rules : Nat → RegisterRule
  cfa : Option CfaRule

/-- The row in front of the instructions of a CIE. -/
def Row.empty : Row := ⟨fun _ => .unspecified, none⟩

structure FrameState where
  row : Row
  saved : List Row

def FrameState.setRule (d : FrameState) (reg : BitVec 64) (rule : RegisterRule) : FrameState :=
  { d with row := { d.row with rules := Function.update d.row.rules reg.toNat rule } }

def FrameState.setCfa (d : FrameState) (rule : CfaRule) : FrameState :=
  { d with row := { d.row with cfa := some rule } }

section Standard

variable (f : EhFrame) (cie : DecoderCIE) (initial : Option Row)

/-- The rule that the CIE left for the register. -/
def standardRestore (d : FrameState) (reg : BitVec 64) : Option FrameState := do
  return d.setRule reg ((← initial).rules reg.toNat)

def standardPacked (d : FrameState) (opcode op : BitVec 64) : CursorM FrameState :=
  if opcode = 0xc0 then standardRestore initial d op
  else if opcode = 0x40 then pure d
  else if opcode = 0x80 then return d.setRule op (.offset ((← standardUleb128 f) * cie.dataAlignFactor))
  else failure

/-- A location is moved over: eight bytes, or as the augmentation encodes it. -/
def standardLocation (encoding : BitVec 64) : CursorM Unit :=
  match (encoding &&& 0x0f).toNat with
  | 0x0 | 0x4 | 0xc => do let _ ← next f 8
  | 0x2 | 0xa => do let _ ← next f 2
  | 0x3 | 0xb => do let _ ← next f 4
  | 0x1 | 0x9 => do let _ ← operandGroups f
  | _ => failure

/-- The block of an expression, which is moved over. -/
def standardBlock : CursorM Address := do
  let c ← get
  skip (← standardUleb128 f)
  return c.cursor

/-- One instruction. `DW_CFA_def_cfa_register` and `DW_CFA_def_cfa_offset` change a rule of a
register and an offset, and a row that is restored has been saved. -/
def standardInstruction (d : FrameState) : DwarfInstruction → CursorM FrameState
  | .nop => pure d
  | .setLoc => do
    standardLocation f (cie.augmentation.elim 0 (·.codeEnc))
    return d
  | .advanceLoc bytes => do
    let _ ← next f bytes
    return d
  | .offsetExtended => do
    let reg ← standardUleb128 f
    let n ← standardUleb128 f
    return d.setRule reg (.offset (n * cie.dataAlignFactor))
  | .valOffset => do
    let reg ← standardUleb128 f
    let n ← standardUleb128 f
    return d.setRule reg (.valOffset (n * cie.dataAlignFactor))
  | .restoreExtended => do standardRestore initial d (← standardUleb128 f)
  | .undefined => return d.setRule (← standardUleb128 f) .undefined
  | .sameValue => return d.setRule (← standardUleb128 f) .sameValue
  | .register => do
    let reg ← standardUleb128 f
    let other ← standardUleb128 f
    return d.setRule reg (.register other)
  | .rememberState => pure { d with saved := d.row :: d.saved }
  | .restoreState =>
    match d.saved with
    | row :: rest => pure { d with row := row, saved := rest }
    | [] => failure
  | .defCfa => do
    let reg ← standardUleb128 f
    let offset ← standardUleb128 f
    return d.setCfa (.registerOffset reg offset)
  | .defCfaRegister => do
    let reg ← standardUleb128 f
    match d.row.cfa with
    | some (.registerOffset _ offset) => return d.setCfa (.registerOffset reg offset)
    | _ => failure
  | .defCfaOffset => do
    let offset ← standardUleb128 f
    match d.row.cfa with
    | some (.registerOffset reg _) => return d.setCfa (.registerOffset reg offset)
    | _ => failure
  | .defCfaExpression => return d.setCfa (.expression (← standardBlock f))
  | .expression => do
    let reg ← standardUleb128 f
    return d.setRule reg (.expression (← standardBlock f))
  | .valExpression => do
    let reg ← standardUleb128 f
    return d.setRule reg (.valExpression (← standardBlock f))
  | .offsetExtendedSf => do
    let reg ← standardUleb128 f
    let n ← standardSleb128 f
    return d.setRule reg (.offset (n * cie.dataAlignFactor))
  | .valOffsetSf => do
    let reg ← standardUleb128 f
    let n ← standardSleb128 f
    return d.setRule reg (.valOffset (n * cie.dataAlignFactor))
  | .defCfaSf => do
    let reg ← standardUleb128 f
    let n ← standardSleb128 f
    return d.setCfa (.registerOffset reg (n * cie.dataAlignFactor))
  | .defCfaOffsetSf => do
    let n ← standardSleb128 f
    match d.row.cfa with
    | some (.registerOffset reg _) => return d.setCfa (.registerOffset reg (n * cie.dataAlignFactor))
    | _ => failure
  | .gnuArgsSize => do
    let _ ← operandGroups f
    return d
  | .gnuNegativeOffsetExtended => do
    let reg ← standardUleb128 f
    let n ← standardUleb128 f
    return d.setRule reg (.offset (-n * cie.dataAlignFactor))
  -- register windows are not a matter of x86-64
  | .gnuWindowSave => failure

def standardRound (d : FrameState) : CursorM FrameState := do
  let opcode ← next f 1
  if opcode &&& 0xc0 ≠ 0 then standardPacked f cie initial d (opcode &&& 0xc0) (opcode &&& 0x3f)
  else match instructionTable.lookup opcode.toNat with
    | some instruction => standardInstruction f cie initial d instruction
    | none => failure

/-- The machine runs until the end of the entry. -/
def standardFrames (stop : Address) : Machine (FrameState × DwarfCursor) where
  halted s := !decide (s.2.cursor < stop)
  step s := (standardRound f cie initial s.1).run s.2

end Standard

/-! ## What a state stands for -/

/-- The rule of a register in the decoder, by the type that its instruction left. -/
def DwarfRegisterData.rule (data : DwarfRegisterData) : RegisterRule :=
  match data.type with
  | 0x80 => .offset data.offset
  | 0x14 => .valOffset data.offset
  | 0x07 => .undefined
  | 0x08 => .sameValue
  | 0x09 => .register data.offset
  | 0x10 => .expression data.offset
  | 0x16 => .valExpression data.offset
  | _ => .unspecified

/-- The CFA rule; an address of zero is no expression. -/
def DwarfState.cfaRule (state : DwarfState) : CfaRule :=
  if state.cfaExpression = 0 then .registerOffset state.cfaRegister state.cfaOffset else .expression state.cfaExpression

/-- The state has the rules of the row; a row may have no CFA rule yet. -/
structure Represents (row : Row) (state : DwarfState) : Prop where
  rules : ∀ r < DwarfState.numRegisters, (state.registers r).rule = row.rules r
  cfa : ∀ rule, row.cfa = some rule → state.cfaRule = rule

/-! ## When an instruction does the same -/

section Conditions

variable (f : EhFrame) (fuel : Nat) (cie : DecoderCIE)

/-- The register that is set is one of the state's, with a condition on what stands behind its number. -/
def RegisterOk (c : DwarfCursor) (P : Nat → DwarfCursor → Prop) : Prop :=
  ∀ gs c', (operandGroups f).run c = some (gs, c') → groupValue gs < DwarfState.numRegisters ∧ P (groupValue gs) c'

/-- Two unsigned operands, or an unsigned and a signed one. -/
def OperandsOk (c : DwarfCursor) (P : DwarfCursor → Prop) : Prop :=
  UlebOk f c ∧ ∀ gs c', (operandGroups f).run c = some (gs, c') → P c'

/-- The block here, which is also decoded, has a length in range and a value. -/
def BlockOk (state : DwarfState) (c : DwarfCursor) : Prop :=
  UlebOk f c ∧ (decodeExpression f state fuel c).isSome

def InstructionOk (d : DecoderState) (c : DwarfCursor) : DwarfInstruction → Prop
  | .setLoc => cie.augmentation.isSome
  | .offsetExtended | .valOffset | .register | .gnuNegativeOffsetExtended => RegisterOk f c fun _ => UlebOk f
  | .offsetExtendedSf | .valOffsetSf => RegisterOk f c fun _ => SlebOk f
  | .restoreExtended | .undefined | .sameValue => RegisterOk f c fun _ _ => True
  | .defCfa => OperandsOk f c (UlebOk f)
  | .defCfaSf => OperandsOk f c (SlebOk f)
  | .defCfaRegister | .defCfaOffset => UlebOk f c
  | .defCfaOffsetSf => SlebOk f c
  | .defCfaExpression => c.cursor ≠ 0 ∧ BlockOk f fuel d.state c
  -- the register is set before the block is decoded
  | .expression => RegisterOk f c fun reg c' =>
      BlockOk f fuel { d.state with registers := Function.update d.state.registers reg ⟨0x10, c'.cursor⟩ } c'
  -- what is left in the register is its old offset
  | .valExpression => RegisterOk f c fun reg c' =>
      BlockOk f fuel d.state c' ∧ (d.state.registers reg).offset = c'.cursor
  | _ => True

/-- The condition before a step, on what the decoder has and on the instruction here. -/
def FrameOk (_ : FrameState × DwarfCursor) (s : DecoderState × DwarfCursor) : Prop :=
  match (next f 1).run s.2 with
  | some (opcode, c) =>
    if opcode &&& 0xc0 ≠ 0 then
      (opcode &&& 0xc0 ≠ 0x40 → (opcode &&& 0x3f).toNat < DwarfState.numRegisters) ∧
        (opcode &&& 0xc0 = 0x80 → UlebOk f c)
    else match instructionTable.lookup opcode.toNat with
      | some instruction => InstructionOk f fuel cie s.1 c instruction
      | none => True
  | none => True

end Conditions

end Egalito.Dwarf
