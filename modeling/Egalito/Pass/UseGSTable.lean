import Egalito.Chunk.GSTable
import Egalito.Lib.Edit
import Egalito.Pass.Retpoline
/-!
# `UseGSTablePass`

`pass/usegstable.cpp`: calls and tail jumps go through the slots behind `%gs`. A
call pushes a word of its own for the return. The lists of `convert` for jump
tables, pointer loads and returns are not modelled; those instructions are others.
-/

namespace Egalito.UseGSTable

open Lib X86 Retpoline Chunk

/-! ## Instructions -/

inductive Condition
  | o | no | b | ae | e | ne | be | a | s | ns | p | np | l | ge | le | g
deriving DecidableEq, Repr

/-- The mnemonic of a direct jump; other ones are those of `jcxz` and `loop`. -/
inductive Mnemonic
  | jmp
  | conditional (c : Condition)
  | unknown
deriving DecidableEq, Repr

/-- The link of a `DataLinkedControlFlowInstruction`: where the operand is, and the target of a `NormalLink`. -/
structure DataLink (χ : Type) where
  address : Word
  isRIPRelative : Bool
  normal : Option χ

/-- The links of the new instructions. -/
inductive NewLink
  /-- A `GSTableLink`. -/
  | gsTable (offset : UInt32)
  /-- A `DistanceLink` from the function to an object. -/
  | distance (target : Nat)
  | data (address : Word) (isRIPRelative : Bool)
deriving DecidableEq, Repr

/-- A link of a direct call or jump may have no target. -/
inductive Semantic (χ I : Type)
  | directCall (target : Option χ)
  /-- A direct jump whose link is external. -/
  | externalJump (mnemonic : Mnemonic) (target : Option χ)
  | indirectCall (o : IndirectOperand)
  | indirectJump (o : IndirectOperand) (forJumpTable : Bool)
  | dataLinked (isCall : Bool) (link : Option (DataLink χ))
  /-- `DisassembleInstruction::instruction` of these, or a semantic with this assembly. -/
  | bytes (code : List UInt8)
  /-- A `LinkedInstruction` with `setIndex(0)`; the field of this operand is at the end. -/
  | linked (code : List UInt8) (link : NewLink)
  | conditionalJump (c : Condition) (target : Nat)
  | other (i : I)

variable {χ I : Type}

abbrev Instruction (χ I : Type) := Nat × Semantic χ I

/-- The lists of the pass. -/
inductive WorkList
  | directCalls | tailRecursions | indirectCalls | indirectTailRecursions | RIPrelativeCalls | RIPrelativeJumps
deriving DecidableEq, Repr

/-- The list that `visit(Block *)` puts an instruction into. -/
def Semantic.workList : Semantic χ I → Option WorkList
  | directCall _ => some .directCalls
  | externalJump _ _ => some .tailRecursions
  | indirectCall _ => some .indirectCalls
  | indirectJump _ forJumpTable => if forJumpTable then none else some .indirectTailRecursions
  | dataLinked isCall _ => if isCall then some .RIPrelativeCalls else some .RIPrelativeJumps
  | _ => none

/-! ## Functions -/

/-- The blocks with the first id that no object has, and the table. -/
structure Body (χ I : Type) where
  blocks : List (List (Instruction χ I))
  nextId : Nat
  gsTable : GSTable χ

def Body.code (b : Body χ I) : List (Instruction χ I) := b.blocks.flatten

/-- No block is empty, and a block ends where there is control flow. -/
def Shaped (blocks : List (List (Instruction χ I))) : Prop :=
  ∀ block ∈ blocks, block ≠ [] ∧ ∀ x ∈ block.dropLast, x.2.workList = none

structure Function (χ I : Type) extends Body χ I where
  self : χ
  nodup : (blocks.flatten.map (·.1)).Nodup
  ids : ∀ x ∈ blocks.flatten, x.1 < nextId
  shaped : Shaped blocks

/-! ## `ChunkMutator` -/

def Body.edit (b : Body χ I) (point : Nat) (f : Instruction χ I → List (Instruction χ I)) : Body χ I :=
  { b with blocks := b.blocks.map (Lib.edit point f) }

def Body.insertAfter (b : Body χ I) (point : Nat) (new : Instruction χ I) : Body χ I := b.edit point fun x => [x, new]

/-- The new object comes behind the point, and they swap their semantics. -/
def Body.insertBeforeJumpTo (b : Body χ I) (point : Nat) (new : Instruction χ I) : Body χ I :=
  b.edit point fun x => [(x.1, new.2), (new.1, x.2)]

def Body.setSemantic (b : Body χ I) (point : Nat) (s : Semantic χ I) : Body χ I := b.edit point fun x => [(x.1, s)]

/-- Each behind the one before. -/
def Body.insertChain (b : Body χ I) (point : Nat) : List (Instruction χ I) → Body χ I
  | [] => b
  | new :: news => (b.insertAfter point new).insertChain new.1 news

/-- What the rewriting functions have in common: the jump through the table gets into the object of the first new
instruction, and the others come between. -/
def Body.replace (b : Body χ I) (point : Nat) (jump first : Semantic χ I) (rest : List (Semantic χ I)) : Body χ I :=
  (({ b with nextId := b.nextId + 1 + rest.length }.setSemantic point jump).insertBeforeJumpTo point
    (b.nextId, first)).insertChain point ((List.range' (b.nextId + 1) rest.length).zip rest)

/-- The first instruction of the block behind the one with `point`. -/
def nextFirst (point : Nat) : List (List (Instruction χ I)) → Option Nat
  | block :: next :: blocks =>
    if block.any (·.1 = point) then next.head?.map (·.1) else nextFirst point (next :: blocks)
  | _ => none

/-- The last of the block goes to a new block, behind `front`. -/
def splitLast (point : Nat) (front : Instruction χ I) (blocks : List (List (Instruction χ I))) :
    List (List (Instruction χ I)) :=
  blocks.flatMap fun block =>
    if block.any (·.1 = point) then [block.dropLast, front :: block.getLast?.toList] else [block]

/-! ## The new instructions -/

/-- `jmpq *%gs:Offset` -/
def jumpSlot (offset : UInt32) : Semantic χ I := .linked [0x65, 0xff, 0x24, 0x25, 0, 0, 0, 0] (.gsTable offset)

/-- `jmpq *%gs:(%r11)` -/
def jumpSlotR11 : Semantic χ I := .bytes [0x65, 0x41, 0xff, 0x23]

/-- `push` of the offset of the function, the low half of the return word. -/
def push1 (offset : UInt32) : Semantic χ I := .bytes (0x68 :: displacementBytes offset.toBitVec)

/-- `movl instr offset, 0x4(%rsp)`; the link is to the object that gets the jump. -/
def movRA (target : Nat) : Semantic χ I := .linked [0xc7, 0x44, 0x24, 0x04, 0, 0, 0, 0] (.distance target)

/-- `movd offset = 0x4(%rip), %mm1` -/
def loadOffset : Semantic χ I := .bytes [0x0f, 0x6e, 0x0d, 0x04, 0, 0, 0]

/-- `movq %r11, %mm1` -/
def moveOffset : Semantic χ I := .bytes [0x49, 0x0f, 0x6e, 0xcb]

/-- `movq EA, %r11`; the bytes are those that a retpoline begins with. -/
def movEA (o : IndirectOperand) : Semantic χ I := .bytes (movBytes o)

/-- `movq disp(%rip), %r11`, with any displacement until it is written. -/
def movLinked (d : UInt8) (link : NewLink) : Semantic χ I := .linked [0x4c, 0x8b, 0x1d, d, 0, 0, 0] link

def Condition.opposite : Condition → Condition
  | .no => .o
  | .o => .no
  | .ae => .b
  | .b => .ae
  | .ne => .e
  | .e => .ne
  | .a => .be
  | .be => .a
  | .ns => .s
  | .s => .ns
  | .np => .p
  | .p => .np
  | .ge => .l
  | .l => .ge
  | .g => .le
  | .le => .g

/-! ## The rewriting functions -/

section

variable [DecidableEq χ] (self : χ)

/-- `none` is a failed assertion, or a block that is missing. -/
def rewriteDirectCall (b : Body χ I) (instr : Nat) (target : χ) : Body χ I :=
  let (gsEntry, table) := b.gsTable.makeJITEntryFor target
  let (gsEntrySelf, table) := table.makeJITEntryFor self
  { b with gsTable := table }.replace instr (jumpSlot gsEntry.getOffset) (push1 gsEntrySelf.getOffset)
    [movRA b.nextId, loadOffset]

def rewriteTailRecursion (b : Body χ I) (instr : Nat) (mnemonic : Mnemonic) (target : χ) : Option (Body χ I) :=
  let (gsEntry, table) := b.gsTable.makeJITEntryFor target
  match mnemonic with
  | .jmp => some ({ b with gsTable := table }.replace instr (jumpSlot gsEntry.getOffset) loadOffset [])
  | .conditional c => do
    let nextI ← nextFirst instr b.blocks
    -- the new jump and the old one change places, and the old one is moved to the new block
    let movOffset : Instruction χ I := (b.nextId, loadOffset)
    let jcc : Instruction χ I := (b.nextId + 1, .conditionalJump c.opposite nextI)
    let b := ({ b with gsTable := table, nextId := b.nextId + 2 }.setSemantic instr
      (jumpSlot gsEntry.getOffset)).insertBeforeJumpTo instr jcc
    some { b with blocks := splitLast instr movOffset b.blocks }
  | .unknown => none

def rewriteIndirectCall (b : Body χ I) (instr : Nat) (o : IndirectOperand) : Body χ I :=
  let (gsEntrySelf, table) := b.gsTable.makeJITEntryFor self
  { b with gsTable := table }.replace instr jumpSlotR11 (push1 gsEntrySelf.getOffset)
    [movRA b.nextId, movEA o, moveOffset]

def rewriteIndirectTailRecursion (b : Body χ I) (instr : Nat) (o : IndirectOperand) : Body χ I :=
  b.replace instr jumpSlotR11 (movEA o) [moveOffset]

def rewriteRIPrelativeCall (b : Body χ I) (instr : Nat) (link : DataLink χ) : Body χ I :=
  let (gsEntrySelf, table) := b.gsTable.makeJITEntryFor self
  { b with gsTable := table }.replace instr jumpSlotR11 (push1 gsEntrySelf.getOffset)
    [movRA b.nextId, movLinked 0 (.data link.address link.isRIPRelative), moveOffset]

/-- An eighth byte behind the move is not disassembled. -/
def rewriteRIPrelativeJump (b : Body χ I) (instr : Nat) (link : DataLink χ) : Body χ I :=
  match link.normal with
  | some target =>
    let (gsEntry, table) := b.gsTable.makeJITEntryFor target
    { b with gsTable := table }.replace instr jumpSlotR11 (movLinked 0x34 (.gsTable gsEntry.getOffset)) [moveOffset]
  | none => b.replace instr jumpSlotR11 (movLinked 0x34 (.data link.address link.isRIPRelative)) [moveOffset]

def rewrite (b : Body χ I) (instr : Instruction χ I) : Option (Body χ I) :=
  match instr.2 with
  | .directCall (some target) => some (rewriteDirectCall self b instr.1 target)
  | .externalJump mnemonic (some target) => rewriteTailRecursion b instr.1 mnemonic target
  | .indirectCall o => some (rewriteIndirectCall self b instr.1 o)
  | .indirectJump o false => some (rewriteIndirectTailRecursion b instr.1 o)
  | .dataLinked true (some link) => some (rewriteRIPrelativeCall self b instr.1 link)
  | .dataLinked false (some link) => some (rewriteRIPrelativeJump b instr.1 link)
  | _ => some b

end

/-- The lists in the order in which `convert` goes through them. -/
def workLists (code : List (Instruction χ I)) : List (Instruction χ I) :=
  [.directCalls, .tailRecursions, .indirectCalls, .indirectTailRecursions, .RIPrelativeCalls, .RIPrelativeJumps].flatMap
    fun list => code.filter (·.2.workList = some list)

def convert [DecidableEq χ] (f : Function χ I) : Option (Body χ I) :=
  (workLists f.code).foldlM (rewrite f.self) f.toBody

end Egalito.UseGSTable
