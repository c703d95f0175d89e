import Egalito.Serializer.LinkTheorems
/-!
# Instruction semantics and `InstrSerializer`

The x86_64 semantics of `instr/concrete.h` and `instr/linked-x86_64.h`, the
bytes that `InstrWriterGetData` gives for them, and `InstrSerializer` of
`instr/serializer.cpp`. A linked literal is an abstract class on x86_64, so
there is none.

The disassembler is a parameter. Its results are used for the bytes of an
instruction and for the place of an operand's displacement in them.
-/

open Egalito.Lib Egalito.Archive

namespace Egalito.Serializer

/-! ## Semantics -/

/-- The storage, link and displacement of a `LinkedInstructionBase`. -/
structure Linked where
  data : List UInt8
  link : Link
  opIndex : UInt8
  displacementSize : Nat
  displacementOffset : Nat

structure ControlFlow where
  id : UInt32
  source : Option ChunkId
  opcode : List UInt8
  mnemonic : CString
  displacementSize : UInt8
  nonreturn : Bool
  link : Link

inductive Semantic where
  | isolated (data : List UInt8)
  | linked (linked : Linked)
  | controlFlow (controlFlow : ControlFlow)
  | dataLinkedControlFlow (linked : Linked) (isRelative : Bool)
  | ret (data : List UInt8)
  | indirectJump (register : UInt8) (mnemonic : CString) (data : List UInt8) (jumpTables : List (Option ChunkId))
  | indirectCall (register : UInt8) (data : List UInt8)
  | stackFrame (data : List UInt8) (opCodeSize displacementSize : Nat) (displacement : UInt64)
  | literal (data : List UInt8)

inductive SemanticKind where
  | isolated | linked | controlFlow | dataLinkedControlFlow | ret | indirectJump | indirectCall | stackFrame
  | literal
deriving DecidableEq, Repr

namespace Semantic

def kind : Semantic → SemanticKind
  | isolated _ => .isolated
  | linked _ => .linked
  | controlFlow _ => .controlFlow
  | dataLinkedControlFlow _ _ => .dataLinkedControlFlow
  | ret _ => .ret
  | indirectJump _ _ _ _ => .indirectJump
  | indirectCall _ _ => .indirectCall
  | stackFrame _ _ _ _ => .stackFrame
  | literal _ => .literal

def getSize : Semantic → Nat
  | isolated data => data.length
  | linked l => l.data.length
  | controlFlow cf => cf.opcode.length + cf.displacementSize.toNat
  | dataLinkedControlFlow l _ => l.data.length
  | ret data => data.length
  | indirectJump _ _ data _ => data.length
  | indirectCall _ data => data.length
  | stackFrame _ opCodeSize displacementSize _ => opCodeSize + displacementSize
  | literal data => data.length

def getLink : Semantic → Link
  | linked l => l.link
  | controlFlow cf => cf.link
  | dataLinkedControlFlow l _ => l.link
  | _ => .null

end Semantic

/-! ## The disassembler -/

/-- What the serializer uses of the disassembler, for a buffer and an operand index. -/
structure Disasm where
  /-- The bytes of the instruction at the start of a buffer; `none` if there is none. -/
  getBytes : List UInt8 → Option (List UInt8)
  determineDisplacementSize : List UInt8 → UInt8 → Nat
  /-- `mem.disp` or `imm` of an operand, whichever it has. -/
  operandValue : List UInt8 → UInt8 → Option UInt64
  /-- The semantic that disassembling a buffer gives; `none` for an exception. -/
  instructionSemantic : List UInt8 → Option Semantic
  /-- No x86_64 instruction is longer. -/
  length_le : ∀ data bytes, getBytes data = some bytes → bytes.length ≤ 15

/-- The loop of `getDispOffset`, from `offset` down: where the `dispSize` bytes of
`disp` stand. -/
def findDisp (bytes : List UInt8) (dispSize : Nat) (disp : UInt64) : Nat → Nat
  | 0 => 0
  | offset + 1 =>
    if (bytes.drop (offset + 1)).take dispSize = leBytes dispSize disp.toNat then offset + 1
    else findDisp bytes dispSize disp offset

/-- `MakeSemantic::getDispOffset` -/
def Disasm.getDispOffset (disasm : Disasm) (bytes : List UInt8) (opIndex : UInt8) : Nat :=
  match disasm.operandValue bytes opIndex with
  | some disp =>
    let dispSize := disasm.determineDisplacementSize bytes opIndex
    findDisp bytes dispSize disp (bytes.length - dispSize)
  | none => 0

section Writer

variable (tree : Tree) (disasm : Disasm) (instruction : ChunkId)

/-- `LinkedInstructionBase::calculateDisplacement` -/
def Linked.calculateDisplacement (linked : Linked) : Option UInt64 :=
  if linked.link = .null then some 0
  else do
    let disp ← linked.link.getTargetAddress tree
    return if linked.link.isRIPRelative then
      disp - (tree.getAddress instruction + UInt64.ofNat linked.data.length) else disp

/-- The bytes with `disp` in the place of the displacement. -/
def Linked.patch (linked : Linked) (bytes : List UInt8) (disp : UInt64) : List UInt8 :=
  bytes.take linked.displacementOffset ++ (leBytes linked.displacementSize disp.toNat ++
    bytes.drop (linked.displacementOffset + linked.displacementSize))

/-- `LinkedInstructionBase::writeTo` -/
def Linked.writeTo (linked : Linked) : Option (List UInt8) := do
  let bytes ← disasm.getBytes linked.data
  let disp ← linked.calculateDisplacement tree instruction
  return linked.patch bytes disp

/-- `ControlFlowInstructionBase::calculateDisplacement` -/
def ControlFlow.calculateDisplacement (cf : ControlFlow) : Option UInt64 := do
  let disp ← cf.link.getTargetAddress tree
  if cf.link.isRIPRelative then do
    let source ← cf.source
    return disp - (tree.getAddress source + UInt64.ofNat (cf.opcode.length + cf.displacementSize.toNat))
  else return disp

/-- `ControlFlowInstructionBase::writeTo` -/
def ControlFlow.writeTo (cf : ControlFlow) : Option (List UInt8) := do
  let disp ← cf.calculateDisplacement tree
  return cf.opcode ++ leBytes cf.displacementSize.toNat disp.toNat

/-- The encoded bytes: `InstrWriterGetData` on the semantic of `instruction`. -/
def Semantic.encoded : Semantic → Option (List UInt8)
  | .isolated data => disasm.getBytes data
  | .linked l => l.writeTo tree disasm instruction
  | .controlFlow cf => cf.writeTo tree
  | .dataLinkedControlFlow l _ => l.writeTo tree disasm instruction
  | .ret data => disasm.getBytes data
  | .indirectJump _ _ data _ => disasm.getBytes data
  | .indirectCall _ data => disasm.getBytes data
  | .stackFrame data opCodeSize displacementSize displacement =>
    some (data.take opCodeSize ++ leBytes displacementSize displacement.toNat)
  | .literal data => some data

/-! ## `InstrSerializer::serialize` -/

/-- The values of `EgalitoInstrType`. -/
def SemanticKind.value : SemanticKind → UInt8
  | isolated => 1
  | linked => 2
  | controlFlow => 3
  | dataLinkedControlFlow => 4
  | ret => 5
  | indirectJump => 6
  | indirectCall => 7
  | stackFrame => 8
  | literal => 9

/-- A writer that can fail; `none` is a failed assertion or an exception. -/
abbrev Writer := StateT IDOperations Option

def liftIDs {α : Type} (m : StateM IDOperations α) : Writer α := fun op => some (m op)

/-- `SemanticSerializer::write` -/
def Semantic.write (semantic : Semantic) : Writer (List UInt8) := do
  let bytes ← semantic.encoded tree disasm instruction
  return writeU8 semantic.kind.value ++ writeBytes8 bytes

def serializeLink (link : Link) : Writer (List UInt8) := do
  if link = .null then failure
  liftIDs (link.serialize tree)

def assignAll : List (Option ChunkId) → StateM IDOperations (List UInt8)
  | [] => return []
  | object :: objects => do
    let id ← assign object
    let ids ← assignAll objects
    return writeU32 id ++ ids

def Semantic.serialize : Semantic → Writer (List UInt8)
  | .linked l => do
    let bytes ← (Semantic.linked l).write tree disasm instruction
    let link ← serializeLink tree l.link
    return bytes ++ (link ++ writeU8 l.opIndex)
  | .controlFlow cf => do
    let source ← liftIDs (assign cf.source)
    let link ← serializeLink tree cf.link
    return writeU8 SemanticKind.controlFlow.value ++ (writeU32 cf.id ++ (writeU32 source ++
      (writeBytes8 cf.opcode ++ (writeString cf.mnemonic.1 ++ (writeU8 cf.displacementSize ++
        (writeBool (!cf.nonreturn) ++ link))))))
  | .dataLinkedControlFlow l isRelative => do
    let link ← serializeLink tree l.link
    return writeU8 SemanticKind.dataLinkedControlFlow.value ++ (link ++ (writeU8 l.opIndex ++
      writeBool isRelative))
  | .indirectJump register mnemonic data jumpTables => do
    let bytes ← disasm.getBytes data
    let ids ← liftIDs (assignAll jumpTables)
    return writeU8 SemanticKind.indirectJump.value ++ (writeString mnemonic.1 ++ (writeU8 register ++
      (writeBytes8 bytes ++ (writeU32 (UInt32.ofNat jumpTables.length) ++ ids))))
  | .indirectCall register data => do
    let bytes ← disasm.getBytes data
    return writeU8 SemanticKind.indirectCall.value ++ (writeU32 register.toUInt32 ++ writeBytes8 bytes)
  | semantic => semantic.write tree disasm instruction

end Writer

/-! ## `InstrSerializer::deserialize` -/

section Reader

variable (tree : Tree) (disasm : Disasm) (lookup : UInt32 → Option (Option ChunkId))

/-- `setIndex`, which finds the displacement of the operand again. -/
def setIndex (data : List UInt8) (link : Link) (opIndex : UInt8) : Option Linked := do
  let bytes ← disasm.getBytes data
  return ⟨data, link, opIndex, disasm.determineDisplacementSize bytes opIndex,
    disasm.getDispOffset bytes opIndex⟩

/-- The fields of the two linked instructions. -/
def deserializeLinked : Reader Linked := do
  let data ← readBytes8
  let link ← deserializeLink tree lookup
  let opIndex ← readU8
  setIndex disasm data link opIndex

/-- `lookupAs` -/
def lookupAs (cls : ChunkClass) : Reader (Option ChunkId) := do
  let target ← deserializeLinkTarget lookup
  return castTo tree cls target

def readJumpTables : Nat → Reader (List (Option ChunkId))
  | 0 => return []
  | count + 1 => do
    let table ← lookupAs tree lookup .jumpTable
    let tables ← readJumpTables count
    return table :: tables

def deserializeControlFlow : Reader ControlFlow := do
  let id ← readU32
  let source ← lookupAs tree lookup .instruction
  let opcode ← readBytes8
  let mnemonic ← readString
  let displacementSize ← readU8
  let returns ← readBool
  let link ← deserializeLink tree lookup
  return ⟨id, source, opcode, ⟨mnemonic.takeWhile (· != 0), zero_notMem_takeWhile mnemonic⟩,
    displacementSize, !returns, link⟩

/-- `InstrSerializer::deserialize`; the inner `none` is `nullptr`. -/
def deserializeSemantic : Reader (Option Semantic) := do
  let type ← readU8
  match type with
  | 1 => do
    let data ← readBytes8
    return some (.isolated data)
  | 2 => do
    let linked ← deserializeLinked tree disasm lookup
    return some (.linked linked)
  | 3 => do
    let cf ← deserializeControlFlow tree lookup
    return some (.controlFlow cf)
  | 4 => do
    let linked ← deserializeLinked tree disasm lookup
    -- `setLink` sets `isRelative`
    return some (.dataLinkedControlFlow linked linked.link.isRIPRelative)
  | 5 => do
    let data ← readBytes8
    return some (.ret data)
  | 6 => do
    let mnemonic ← readString
    let register ← readU8
    let data ← readBytes8
    let tableCount ← readU32
    let tables ← readJumpTables tree lookup tableCount.toNat
    return some (.indirectJump register ⟨mnemonic.takeWhile (· != 0), zero_notMem_takeWhile mnemonic⟩ data tables)
  | 7 => do
    let register ← readU32
    let data ← readBytes8
    return some (.indirectCall register.toUInt8 data)
  | 8 => failure
  | 9 => failure
  | 10 => do
    let bytes ← readBytes8
    return some ((disasm.instructionSemantic bytes).getD (.isolated bytes))
  | _ => return none

end Reader

/-! ## What a round trip should give -/

/-- The storage is one instruction with its displacement inside it, and putting another
displacement there changes only that operand. -/
structure Linked.WellFormed (disasm : Disasm) (l : Linked) : Prop where
  single : disasm.getBytes l.data = some l.data
  after : 0 < l.displacementOffset
  inside : l.displacementOffset + l.displacementSize ≤ l.data.length
  patched : ∀ disp, disasm.getBytes (l.patch l.data disp) = some (l.patch l.data disp)
  size : ∀ disp, disasm.determineDisplacementSize (l.patch l.data disp) l.opIndex = l.displacementSize
  value : ∀ disp, ∃ value, disasm.operandValue (l.patch l.data disp) l.opIndex = some value ∧
    leBytes l.displacementSize value.toNat = leBytes l.displacementSize disp.toNat

/-- The storage is one instruction, and chunks have the classes the pointer types ask for. -/
def Semantic.WellFormed (tree : Tree) (disasm : Disasm) : Semantic → Prop
  | .isolated data => disasm.getBytes data = some data
  | .linked l => l.WellFormed disasm ∧ l.link.WellTyped tree
  | .controlFlow cf => cf.opcode.length ≤ 15 ∧ (∀ c ∈ cf.source, tree.chunkClass c = .instruction) ∧
      cf.link.WellTyped tree
  | .dataLinkedControlFlow l _ => l.WellFormed disasm ∧ l.link.WellTyped tree
  | .ret data => disasm.getBytes data = some data
  | .indirectJump _ _ data jumpTables => disasm.getBytes data = some data ∧
      ∀ table ∈ jumpTables, ∀ c ∈ table, tree.chunkClass c = .jumpTable
  | .indirectCall _ data => disasm.getBytes data = some data
  | .stackFrame _ _ _ _ => True
  | .literal _ => True

/-- The same kind, encoded bytes, size and link target. -/
structure Semantic.Same (tree : Tree) (disasm : Disasm) (instruction : ChunkId) (semantic back : Semantic) :
    Prop where
  kind : back.kind = semantic.kind
  encoded : back.encoded tree disasm instruction = semantic.encoded tree disasm instruction
  size : back.getSize = semantic.getSize
  link : SameTarget tree semantic.getLink back.getLink

/-- `deserialize` takes exactly `bytes`, and returns the same semantic. -/
def Semantic.RoundTrips (tree : Tree) (disasm : Disasm) (instruction : ChunkId)
    (lookup : UInt32 → Option (Option ChunkId)) (bytes : List UInt8) (semantic : Semantic) : Prop :=
  ∃ back, Reads (deserializeSemantic tree disasm lookup) bytes (some back) ∧
    semantic.Same tree disasm instruction back

end Egalito.Serializer
