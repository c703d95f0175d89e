import Egalito.Code.Inserted
import Egalito.Lib.Layout
/-!
# Functions that passes insert code into

Functions for x86-64 as blocks of instructions, an instruction being an object
with a semantic. Links point to objects, so it matters which object the code in
front of an instruction is put into: `insertBefore` puts it into new ones,
`insertBeforeJumpTo` gives the old object to the new code.
-/

open Egalito.Lib

namespace Egalito.Code

/-! ## Semantics -/

inductive Mnemonic
  | jmp
  /-- A call that was disassembled, or one that a pass has made. -/
  | callq | call
  /-- `jrcxz` and `loop` do not test flags. -/
  | conditional (testsFlags : Bool)
deriving DecidableEq, Repr

/-- The targets that `InternalCalls` tells apart. -/
inductive Link
  /-- A `NormalLink` to an instruction of the same function. -/
  | instruction (id : Nat)
  /-- A `NormalLink` to the function itself: what its first address is resolved to. -/
  | ownFunction
  | function (f : Nat)
  | foreignInstruction
  | plt
  | unresolved
deriving DecidableEq, Repr

/-- The scope is internal for targets in the same function only. -/
def Link.isExternalJump : Link → Bool
  | instruction _ | ownFunction => false
  | _ => true

/-- What matters here of an instruction without a class of its own. `ret imm` is one. -/
structure Isolated where
  returns : Bool
  testsFlags : Bool
  writesFlags : Bool
  /-- A `push`, or `sub imm,%rsp`. -/
  framesStack : Bool
deriving DecidableEq, Repr

inductive Semantic
  | isolated (i : Isolated)
  | returnInstruction
  | controlFlow (mnemonic : Mnemonic) (link : Link)
  /-- The targets of each of its tables; `described` when the module's list has a table for it. -/
  | indirectJump (jumpTables : List (List Nat)) (described : Bool)
  | indirectCall
  | dataLinkedControlFlow (isCall : Bool)
  | inserted (i : Inserted)
deriving DecidableEq, Repr

namespace Semantic

def isInserted : Semantic → Bool
  | inserted _ => true
  | _ => false

/-- What an inserted instruction does. -/
def op : Semantic → Option Op
  | inserted i => i.op
  | _ => none

/-- `IndirectJumpInstruction::isForJumpTable` -/
def isForJumpTable (jumpTables : List (List Nat)) : Bool := !jumpTables.isEmpty

/-- Whether an instruction of the original code decides by the flags. -/
def testsFlags : Semantic → Bool
  | isolated i => i.testsFlags
  | controlFlow (.conditional tests) _ => tests
  | _ => false

/-- Calls do not keep the flags. -/
def writesFlags : Semantic → Bool
  | isolated i => i.writesFlags
  | controlFlow mnemonic _ => mnemonic = .callq ∨ mnemonic = .call
  | indirectCall => true
  | dataLinkedControlFlow isCall => isCall
  | inserted i => i.writesFlags
  | _ => false

def framesStack : Semantic → Bool
  | isolated i => i.framesStack
  | inserted i => match i.op with
    | some (.push _) | some (.subStack _) => true
    | _ => false
  | _ => false

/-- Where the jump of a link goes. -/
def goes : Link → Next Nat
  | .instruction id => .jump id
  | .ownFunction => .restart
  | _ => .leave

/-- Where control can go. Calls return, and the violation target is not part of the program. -/
def next : Semantic → List (Next Nat)
  | isolated i => if i.returns then [.leave] else [.fall]
  | returnInstruction => [.leave]
  | controlFlow .jmp link => [goes link]
  | controlFlow (.conditional _) link => [goes link, .fall]
  | controlFlow _ _ => [.fall]
  | indirectJump jumpTables _ => if isForJumpTable jumpTables then jumpTables.flatten.map .jump else [.leave]
  | indirectCall => [.fall]
  | dataLinkedControlFlow isCall => if isCall then [.fall] else [.leave]
  | inserted _ => [.fall]

end Semantic

/-- `Disassemble::instruction` of bytes that are known to be one instruction. -/
def ofBytes (code : List UInt8) : Semantic := .inserted (.bytes code)

/-! ## Functions -/

/-- An object and its semantic. -/
abbrev Instruction := Nat × Semantic

/-- What a pass changes: the blocks, with the first id that no object has. -/
structure Body where
  blocks : List (List Instruction)
  nextId : Nat
deriving DecidableEq, Repr

def Body.code (b : Body) : List Instruction := b.blocks.flatten

/-- A function as a pass gets it: objects are distinct, and links are to objects that exist. -/
structure Function extends Body where
  nodup : (blocks.flatten.map (·.1)).Nodup
  ids : ∀ x ∈ blocks.flatten, x.1 < nextId
  targets : ∀ x ∈ blocks.flatten, ∀ l, .jump l ∈ x.2.next → l < nextId
  original : ∀ x ∈ blocks.flatten, x.2.isInserted = false

/-- `FrameType::hasStackFrame` -/
def Body.hasStackFrame (b : Body) : Bool := b.code.any (·.2.framesStack)

/-! ## `ChunkMutator` on the instructions of a block -/

def insertBefore (point : Nat) (new : Instruction) (block : List Instruction) : List Instruction :=
  block.flatMap fun x => if x.1 = point then [new, x] else [x]

/-- The semantics of the point and of the new object, which comes behind it, are swapped. -/
def insertBeforeJumpTo (point : Nat) (new : Instruction) (block : List Instruction) : List Instruction :=
  block.flatMap fun x => if x.1 = point then [(x.1, new.2), (new.1, x.2)] else [x]

def insertAllBefore (point : Nat) (toBeInserted : List Instruction) (beforeJumpTo : Bool) (block : List Instruction) :
    List Instruction :=
  if beforeJumpTo then toBeInserted.reverse.foldl (fun block new => insertBeforeJumpTo point new block) block
  else toBeInserted.foldl (fun block new => insertBefore point new block) block

/-- New objects for these semantics. -/
def Body.newInstructions (b : Body) (code : List Semantic) : List Instruction :=
  (List.range' b.nextId code.length).zip code

/-- The point is in one block only. -/
def Body.insertAll (b : Body) (point : Nat) (code : List Semantic) (beforeJumpTo : Bool) : Body where
  blocks := b.blocks.map (insertAllBefore point (b.newInstructions code) beforeJumpTo)
  nextId := b.nextId + code.length

end Egalito.Code
