import Egalito.Lib.Stream
/-!
# Reading an `.eh_frame` section

The section in memory and the `DwarfCursor` of `dwarf/cursor.h`. `none` is a read
outside of the section, or another step without a defined result.
-/

open Egalito.Lib

namespace Egalito.Dwarf

abbrev Address := BitVec 64

/-- The section as it is mapped. -/
structure EhFrame where
  readAddress : Address
  virtualAddress : Address
  bytes : List UInt8
  mapped : readAddress.toNat + bytes.length < 2 ^ 64

namespace EhFrame

variable (f : EhFrame)

/-- The end of the section, `readAddress + virtualSize`. -/
def endAddress : Address := f.readAddress + BitVec.ofNat 64 f.bytes.length

/-- The little-endian value of `n` bytes. -/
def read (n : Nat) (address : Address) : Option (BitVec 64) :=
  let offset := (address - f.readAddress).toNat
  if offset + n ≤ f.bytes.length then some (BitVec.ofNat 64 (leNat ((f.bytes.drop offset).take n))) else none

end EhFrame

structure DwarfCursor where
  start : Address
  cursor : Address
deriving DecidableEq

/-- The constructor of a cursor. -/
def DwarfCursor.at (address : Address) : DwarfCursor := ⟨address, address⟩

/-- Code that moves a cursor. -/
abbrev CursorM := StateT DwarfCursor Option

section Cursor

variable (f : EhFrame)

def next (n : Nat) : CursorM (BitVec 64) := do
  let c ← get
  let value ← f.read n c.cursor
  set { c with cursor := c.cursor + BitVec.ofNat 64 n }
  return value

/-- `next` for a signed type. -/
def nextSigned (n : Nat) : CursorM (BitVec 64) := do
  return ((← next f n).setWidth (8 * n)).signExtend 64

def skip (bytes : BitVec 64) : CursorM Unit := modify fun c => { c with cursor := c.cursor + bytes }

/-- `(byte & 0x7f) << shift` is an `int`; the processor shifts it by the low five bits. -/
def leb128Part (byte : BitVec 64) (shift : Nat) : BitVec 64 :=
  (((byte &&& 0x7f).setWidth 32) <<< (shift % 32)).signExtend 64

/-- The loop of both functions, with the result, the shift and the last byte. Every round
reads another byte of the section, which bounds their number. -/
def nextLeb128 : Nat → BitVec 64 → Nat → CursorM (BitVec 64 × Nat × BitVec 64)
  | 0, _, _ => failure
  | rounds + 1, result, shift => do
    let byte ← next f 1
    let result := result ||| leb128Part byte shift
    if byte &&& 0x80 ≠ 0 then nextLeb128 rounds result (shift + 7)
    else return (result, shift + 7, byte)

def nextUleb128 : CursorM (BitVec 64) := do
  let (result, _, _) ← nextLeb128 f (f.bytes.length + 1) 0 0
  return result

/-- `LONG_LONG_MAX << shift` fills the upper bits. -/
def nextSleb128 : CursorM (BitVec 64) := do
  let (result, shift, byte) ← nextLeb128 f (f.bytes.length + 1) 0 0
  if byte &&& 0x40 ≠ 0 ∧ shift < 128 then return result ||| (0x7fffffffffffffff <<< (shift % 64))
  else return result

def stringRounds : Nat → CursorM (List UInt8)
  | 0 => failure
  | rounds + 1 => do
    let byte ← next f 1
    if byte = 0 then return []
    else return UInt8.ofNat byte.toNat :: (← stringRounds rounds)

/-- The string without its final zero. -/
def nextString : CursorM (List UInt8) := stringRounds f (f.bytes.length + 1)

/-- `DW_EH_PE_omit`. -/
def encodingOmit : BitVec 64 := 0xff

/-- `parseNextEncodedPointer`. An unknown format is reported and reads nothing. -/
def nextEncodedPointer (encoding : BitVec 64) : CursorM (BitVec 64) := do
  if encoding = encodingOmit then return 0
  -- DW_EH_PE_pcrel is relative to the cursor, all others are taken as they are
  let base ← if encoding &&& 0x70 = 0x10 then (·.cursor) <$> get else pure 0
  let value ← match (encoding &&& 0x0f).toNat with
    | 0x0 => next f 8
    | 0x4 => next f 8
    | 0x1 => nextUleb128 f
    | 0x2 => next f 2
    | 0x3 => next f 4
    | 0x9 => nextSleb128 f
    | 0xa => nextSigned f 2
    | 0xb => nextSigned f 4
    | 0xc => nextSigned f 8
    | _ => pure 0
  return base + value

end Cursor

/-! ## Call frame instructions

`DwarfExpressionDecoder::decode` and `DwarfInstructionDecoder::parseInstructions`
with every operation they know. An expression is decoded for its log only: its
value is dropped, but it can fail, and its jumps need not end.
-/

/-! ## The state of the registers -/

structure DwarfRegisterData where
  type : Nat
  offset : BitVec 64
deriving DecidableEq

structure DwarfState where
  registers : Nat → DwarfRegisterData
  cfaRegister : BitVec 64
  cfaOffset : BitVec 64
  cfaExpression : Address

namespace DwarfState

def empty : DwarfState := ⟨fun _ => ⟨0, 0⟩, 0, 0, 0⟩

/-- The number of registers for x86-64. -/
def numRegisters : Nat := 17

/-- `registers[reg]` of an array. -/
def get (state : DwarfState) (reg : BitVec 64) : Option DwarfRegisterData :=
  if reg.toNat < numRegisters then some (state.registers reg.toNat) else none

def set (state : DwarfState) (reg : BitVec 64) (type : Nat) (offset : BitVec 64) : Option DwarfState :=
  if reg.toNat < numRegisters then
    some { state with registers := Function.update state.registers reg.toNat ⟨type, offset⟩ }
  else none

end DwarfState

/-! ## Expressions -/

inductive DwarfOperation
  | addr | deref | xderef
  | constant (bytes : Nat) (signed : Bool) | constu | consts
  | dup | drop | over | pick | swap | rot
  | abs | neg | not
  | and | or | xor | div | minus | mod | mul | plus | plusUconst
  | shl | shr | shra | skip | bra
  | eq | ge | gt | le | lt | ne
  | lit (value : Nat) | reg (reg : Nat) | regx | breg (reg : Nat) | bregx
  | derefSize | unsupported

/-- The operations outside of the three ranges, by their code. -/
def operationTable : List (Nat × DwarfOperation) :=
  [(0x03, .addr), (0x06, .deref), (0x08, .constant 1 false), (0x09, .constant 1 true), (0x0a, .constant 2 false),
    (0x0b, .constant 2 true), (0x0c, .constant 4 false), (0x0d, .constant 4 true), (0x0e, .constant 8 false),
    (0x0f, .constant 8 true), (0x10, .constu), (0x11, .consts), (0x12, .dup), (0x13, .drop), (0x14, .over),
    (0x15, .pick), (0x16, .swap), (0x17, .rot), (0x18, .xderef), (0x19, .abs), (0x1a, .and), (0x1b, .div),
    (0x1c, .minus), (0x1d, .mod), (0x1e, .mul), (0x1f, .neg), (0x20, .not), (0x21, .or), (0x22, .plus),
    (0x23, .plusUconst), (0x24, .shl), (0x25, .shr), (0x26, .shra), (0x27, .xor), (0x28, .bra), (0x29, .eq),
    (0x2a, .ge), (0x2b, .gt), (0x2c, .le), (0x2d, .lt), (0x2e, .ne), (0x2f, .skip), (0x90, .regx), (0x92, .bregx),
    (0x94, .derefSize)]

/-- `DW_OP_lit0`, `DW_OP_reg0` and `DW_OP_breg0` start ranges of 32. -/
def DwarfOperation.ofCode (code : Nat) : DwarfOperation :=
  if 0x30 ≤ code ∧ code < 0x50 then .lit (code - 0x30)
  else if 0x50 ≤ code ∧ code < 0x70 then .reg (code - 0x50)
  else if 0x70 ≤ code ∧ code < 0x90 then .breg (code - 0x70)
  else (operationTable.lookup code).getD .unsupported

section Expression

variable (f : EhFrame) (state : DwarfState)

/-- A binary operation on the two upper values of the stack, the upper one last. -/
def binary (op : BitVec 64 → BitVec 64 → BitVec 64) : List (BitVec 64) → Option (List (BitVec 64))
  | value :: back :: rest => some (op back value :: rest)
  | _ => none

def unary (op : BitVec 64 → BitVec 64) : List (BitVec 64) → Option (List (BitVec 64))
  | back :: rest => some (op back :: rest)
  | [] => none

/-- Division stops at zero. -/
def divide (op : BitVec 64 → BitVec 64 → BitVec 64) : List (BitVec 64) → Option (List (BitVec 64))
  | value :: back :: rest => if value = 0 then none else some (op back value :: rest)
  | _ => none

def flag (b : Bool) : BitVec 64 := if b then 1 else 0

/-- One round of the loop: the operation on the stack, which is given from its top. -/
def runOperation (stack : List (BitVec 64)) : DwarfOperation → CursorM (List (BitVec 64))
  | .addr => return (← next f 8) :: stack
  | .deref | .xderef =>
    match stack with
    | value :: rest => do return (← f.read 8 value) :: rest
    | [] => failure
  | .constant bytes signed => do
    return (← if signed then nextSigned f bytes else next f bytes) :: stack
  | .constu => return (← nextUleb128 f) :: stack
  | .consts => return (← nextSleb128 f) :: stack
  | .dup => do return (← stack.head?) :: stack
  | .drop =>
    match stack with
    | _ :: rest => pure rest
    | [] => failure
  | .over => do return (← stack[1]?) :: stack
  | .pick => do
    let reg ← next f 1
    return (← stack[reg.toNat]?) :: stack
  | .swap =>
    match stack with
    | a :: b :: rest => pure (b :: a :: rest)
    | _ => failure
  | .rot =>
    match stack with
    | a :: b :: c :: rest => pure (b :: c :: a :: rest)
    | _ => failure
  | .abs => unary (fun v => if v.toInt < 0 then -v else v) stack
  | .neg => unary (fun v => -v) stack
  | .not => unary (fun v => ~~~v) stack
  | .and => binary (· &&& ·) stack
  | .or => binary (· ||| ·) stack
  | .xor => binary (· ^^^ ·) stack
  | .div => divide (· / ·) stack
  | .minus => binary (· - ·) stack
  | .mod => divide (· % ·) stack
  | .mul => binary (· * ·) stack
  | .plus => binary (· + ·) stack
  | .plusUconst => do
    let value ← nextUleb128 f
    unary (· + value) stack
  | .shl => binary (fun back value => back <<< (value.toNat % 64)) stack
  | .shr => binary (fun back value => back >>> (value.toNat % 64)) stack
  | .shra => binary (fun back value => back.sshiftRight (value.toNat % 64)) stack
  | .skip => do
    skip (← nextSigned f 2)
    return stack
  | .bra => do
    let offset ← nextSigned f 2
    match stack with
    | [] => return []
    | _ :: rest =>
      skip offset
      return rest
  | .eq => binary (fun back value => flag (back == value)) stack
  | .ge => binary (fun back value => flag (value.ule back)) stack
  | .gt => binary (fun back value => flag (value.ult back)) stack
  | .le => binary (fun back value => flag (back.ule value)) stack
  | .lt => binary (fun back value => flag (back.ult value)) stack
  | .ne => binary (fun back value => flag (back != value)) stack
  | .lit value => return BitVec.ofNat 64 value :: stack
  | .reg reg => do return (← state.get (BitVec.ofNat 64 reg)).offset :: stack
  | .regx => do return (← state.get (← nextUleb128 f)).offset :: stack
  | .breg reg => do
    let svalue ← nextSleb128 f
    return ((← state.get (BitVec.ofNat 64 reg)).offset + svalue) :: stack
  | .bregx => do
    let reg ← nextUleb128 f
    let svalue ← nextSleb128 f
    return ((← state.get reg).offset + svalue) :: stack
  | .derefSize =>
    match stack with
    | value :: rest => do
      let size ← next f 1
      let value ← if size = 1 ∨ size = 2 ∨ size = 4 ∨ size = 8 then next f size.toNat else pure value
      return value :: rest
    | [] => failure
  | .unsupported => return stack

/-- The loop up to the end of the expression; `none` when the fuel runs out. -/
def runExpression (stop : Address) : Nat → List (BitVec 64) → CursorM (List (BitVec 64))
  | 0, _ => failure
  | fuel + 1, stack => do
    if (← get).cursor < stop then
      let opcode ← next f 1
      runExpression stop fuel (← runOperation f state stack (.ofCode opcode.toNat))
    else return stack

/-- `decode`, on a copy of the cursor; at the end the top of the stack is taken. -/
def decodeExpression (fuel : Nat) (start : DwarfCursor) : Option (BitVec 64) := do
  let (length, start) ← (nextUleb128 f).run start
  let (stack, _) ← (runExpression f state (start.cursor + length) fuel []).run start
  stack.head?

end Expression

/-! ## Instructions -/

/-- The augmentation of a CIE, with its defaults. -/
structure CIEAugmentation where
  personalityEncoding : BitVec 64
  personalityEncodingRoutine : BitVec 64
  codeEnc : BitVec 64
  lsdaEnc : BitVec 64
  isSignal : Bool
deriving DecidableEq

def CIEAugmentation.default : CIEAugmentation := ⟨0, 0, 0, encodingOmit, false⟩

/-- What the decoder carries along: the current location and the remembered states. -/
structure DecoderState where
  state : DwarfState
  rememberedState : List DwarfState
  cfaIp : BitVec 64

section Decoder

variable (f : EhFrame) (fuel : Nat)

/-- A CIE has no state yet while its own instructions are decoded. -/
structure DecoderCIE where
  codeAlignFactor : BitVec 64
  dataAlignFactor : BitVec 64
  /-- The constructor of `DwarfCIE` does not set the pointer; `none` is reading it then. -/
  augmentation : Option CIEAugmentation

variable (cie : DecoderCIE)

/-- Sets a register from the instruction. -/
def setRegister (d : DecoderState) (reg : BitVec 64) (type : Nat) (offset : BitVec 64) : Option DecoderState := do
  return { d with state := ← d.state.set reg type offset }

def advanceLoc (d : DecoderState) (ofs : BitVec 64) : DecoderState :=
  { d with cfaIp := d.cfaIp + ofs * cie.codeAlignFactor }

/-- The instructions with their operand in the opcode: `DW_CFA_advance_loc`,
`DW_CFA_offset` and `DW_CFA_restore`, which needs the state of the CIE. -/
def runPacked (d : DecoderState) (opcode op : BitVec 64) : CursorM DecoderState :=
  if opcode = 0x40 then pure (advanceLoc cie d op)
  else if opcode = 0x80 then do
    let registerOffset ← nextUleb128 f
    setRegister d op 0x80 (registerOffset * cie.dataAlignFactor)
  else failure

/-- A block behind an instruction is skipped, after it has been decoded from here. -/
def skipExpression (d : DecoderState) : CursorM Unit := do
  let _ ← decodeExpression f d.state fuel (← get)
  let ul ← nextUleb128 f
  skip ul

inductive DwarfInstruction
  | nop | setLoc | advanceLoc (bytes : Nat)
  | offsetExtended | restoreExtended | undefined | sameValue | register
  | rememberState | restoreState
  | defCfa | defCfaRegister | defCfaOffset | defCfaExpression
  | expression | offsetExtendedSf | defCfaSf | defCfaOffsetSf
  | valOffset | valOffsetSf | valExpression
  | gnuWindowSave | gnuArgsSize | gnuNegativeOffsetExtended
deriving DecidableEq

def instructionTable : List (Nat × DwarfInstruction) :=
  [(0x00, .nop), (0x01, .setLoc), (0x02, .advanceLoc 1), (0x03, .advanceLoc 2), (0x04, .advanceLoc 4),
    (0x05, .offsetExtended), (0x06, .restoreExtended), (0x07, .undefined), (0x08, .sameValue), (0x09, .register),
    (0x0a, .rememberState), (0x0b, .restoreState), (0x0c, .defCfa), (0x0d, .defCfaRegister), (0x0e, .defCfaOffset),
    (0x0f, .defCfaExpression), (0x10, .expression), (0x11, .offsetExtendedSf), (0x12, .defCfaSf),
    (0x13, .defCfaOffsetSf), (0x14, .valOffset), (0x15, .valOffsetSf), (0x16, .valExpression),
    (0x1d, .advanceLoc 8), (0x2d, .gnuWindowSave), (0x2e, .gnuArgsSize), (0x2f, .gnuNegativeOffsetExtended)]

def runInstruction (d : DecoderState) : DwarfInstruction → CursorM DecoderState
  | .nop | .gnuWindowSave => pure d
  | .setLoc => do
    let augmentation ← cie.augmentation
    return { d with cfaIp := ← nextEncodedPointer f augmentation.codeEnc }
  | .advanceLoc bytes => return advanceLoc cie d (← next f bytes)
  | .offsetExtended => do
    let reg ← nextUleb128 f
    let registerOffset ← nextUleb128 f
    setRegister d reg 0x80 (registerOffset * cie.dataAlignFactor)
  | .valOffset => do
    let reg ← nextUleb128 f
    let registerOffset ← nextUleb128 f
    setRegister d reg 0x14 (registerOffset * cie.dataAlignFactor)
  | .restoreExtended => failure
  | .undefined => do setRegister d (← nextUleb128 f) 0x07 0
  | .sameValue => do setRegister d (← nextUleb128 f) 0x08 0
  | .register => do
    let reg ← nextUleb128 f
    setRegister d reg 0x09 (← nextUleb128 f)
  | .rememberState => pure { d with rememberedState := d.state :: d.rememberedState }
  | .restoreState =>
    match d.rememberedState with
    | state :: rest => pure { d with state := state, rememberedState := rest }
    | [] => pure d
  | .defCfa => do
    let reg ← nextUleb128 f
    let offset ← nextUleb128 f
    return { d with state := { d.state with cfaRegister := reg, cfaOffset := offset, cfaExpression := 0 } }
  | .defCfaRegister => do
    let reg ← nextUleb128 f
    return { d with state := { d.state with cfaRegister := reg, cfaExpression := 0 } }
  | .defCfaOffset => do
    let offset ← nextUleb128 f
    return { d with state := { d.state with cfaOffset := offset } }
  | .defCfaExpression => do
    let c ← get
    skipExpression f fuel d
    return { d with state := { d.state with cfaExpression := c.cursor } }
  | .expression => do
    let reg ← nextUleb128 f
    let d ← setRegister d reg 0x10 (← get).cursor
    skipExpression f fuel d
    return d
  | .valExpression => do
    let reg ← nextUleb128 f
    skipExpression f fuel d
    setRegister d reg 0x16 (← d.state.get reg).offset
  | .offsetExtendedSf => do
    let reg ← nextUleb128 f
    let l ← nextSleb128 f
    setRegister d reg 0x80 (l * cie.dataAlignFactor)
  | .valOffsetSf => do
    let reg ← nextUleb128 f
    let l ← nextSleb128 f
    setRegister d reg 0x14 (l * cie.dataAlignFactor)
  | .defCfaSf => do
    let reg ← nextUleb128 f
    let l ← nextSleb128 f
    return { d with state :=
      { d.state with cfaRegister := reg, cfaOffset := l * cie.dataAlignFactor, cfaExpression := 0 } }
  | .defCfaOffsetSf => do
    let l ← nextSleb128 f
    return { d with state := { d.state with cfaOffset := l * cie.dataAlignFactor } }
  | .gnuArgsSize => do
    let _ ← nextUleb128 f
    return d
  | .gnuNegativeOffsetExtended => do
    let reg ← nextUleb128 f
    let l ← nextUleb128 f
    setRegister d reg 0x80 (-l * cie.dataAlignFactor)

/-- The loop up to the end of the entry. An unknown opcode ends it. -/
def runInstructions (stop : Address) : Nat → DecoderState → CursorM DwarfState
  | 0, _ => failure
  | rounds + 1, d => do
    if (← get).cursor < stop then
      let opcode ← next f 1
      if opcode &&& 0xc0 ≠ 0 then
        runInstructions stop rounds (← runPacked f cie d (opcode &&& 0xc0) (opcode &&& 0x3f))
      else match instructionTable.lookup opcode.toNat with
        | some instruction => runInstructions stop rounds (← runInstruction f fuel cie d instruction)
        | none => return d.state
    else return d.state

/-- `parseInstructions` for a CIE. -/
def parseInstructions (start : DwarfCursor) (stop : Address) : Option DwarfState := do
  let (state, _) ← (runInstructions f fuel cie stop fuel ⟨.empty, [], 0⟩).run start
  return state

end Decoder

end Egalito.Dwarf
