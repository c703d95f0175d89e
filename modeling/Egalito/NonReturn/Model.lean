import Mathlib.Data.List.Basic
import Mathlib.Tactic
/-!
# Functions and their control-flow graphs

Functions for x86-64 as the passes see them: blocks of instructions of which only
the last can be a jump, since the disassembler splits a block behind every jump.
`forwardLinks` is `ControlFlowGraph::construct` of one block.
-/

namespace Egalito.NonReturn

/-! ## Instructions -/

/-- The mnemonics that the code compares with; every other one is a conditional jump. -/
inductive Mnemonic
  | jmp | callq | conditional
deriving DecidableEq

/-- What the link of a control-flow instruction points to. -/
inductive Target
  /-- A trampoline, with the name of its external symbol if it has one. -/
  | plt (externalSymbol : Option String)
  | function (f : Nat)
  /-- An instruction in a block of the same function. -/
  | block (b : Nat)
  /-- An instruction of another function, or not resolved. -/
  | elsewhere
deriving DecidableEq

structure ControlFlowInstruction where
  mnemonic : Mnemonic
  target : Target
  nonreturn : Bool
deriving DecidableEq

namespace ControlFlowInstruction

def returns (cfi : ControlFlowInstruction) : Bool := !cfi.nonreturn

def setNonreturn (cfi : ControlFlowInstruction) : ControlFlowInstruction := { cfi with nonreturn := true }

end ControlFlowInstruction

/-- An entry of a jump table with a target, which may be in a block of the same function. -/
structure JumpTableEntry where
  targetAddress : Nat
  block : Option Nat
deriving DecidableEq

inductive Instruction
  | controlFlow (cfi : ControlFlowInstruction)
  | indirectJump (isCall : Bool) (jumpTables : List (List JumpTableEntry))
  | return
  | break
  | other
deriving DecidableEq

/-- A direct jump, conditional or not. -/
def Instruction.isJump : Instruction → Bool
  | .controlFlow cfi => cfi.mnemonic != .callq
  | _ => false

structure Block where
  init : List Instruction
  last : Instruction
  jumpsLast : ∀ i ∈ init, i.isJump = false

def Block.instructions (b : Block) : List Instruction := b.init ++ [b.last]

structure Function where
  names : List String
  nonreturn : Bool
  blocks : List Block

namespace Function

def hasName (f : Function) (name : String) : Bool := f.names.contains name

def returns (f : Function) : Bool := !f.nonreturn

end Function

/-! ## The graph -/

/-- The targets of one jump table; an address counts once. -/
def jumpTableLinks : List JumpTableEntry → List Nat → List Nat
  | [], _ => []
  | entry :: rest, added =>
    if entry.targetAddress ∈ added then jumpTableLinks rest added
    else entry.block.toList ++ jumpTableLinks rest (entry.targetAddress :: added)

/-- The blocks that the last instruction jumps to. -/
def jumpLinks : Instruction → List Nat
  | .controlFlow ⟨mnemonic, .block b, _⟩ => if mnemonic ≠ .callq then [b] else []
  | .indirectJump false jumpTables => jumpTables.flatMap (jumpTableLinks · [])
  | _ => []

/-- Whether the next block can follow the last instruction. -/
def fallThrough : Instruction → Bool
  | .controlFlow cfi => cfi.mnemonic != .jmp && !(cfi.mnemonic == .callq && !cfi.returns)
  | .indirectJump isCall _ => isCall
  | .return | .break => false
  | .other => true

/-- The links of block `id`. A block that is not in the function is not in the graph. -/
def Function.forwardLinks (f : Function) (id : Nat) : List Nat :=
  match f.blocks[id]? with
  | none => []
  | some b => (jumpLinks b.last ++ if fallThrough b.last then [id + 1] else []).filter (· < f.blocks.length)

/-! ## The `NonReturnFunction` pass

The state is every function of the program, with the marks that the pass sets on
functions and on control-flow instructions, and its list of functions found.

Whether an `error()` call has a first argument known to be nonzero comes from the
use-def analysis, which is a parameter here.
-/

/-- Known to be non-returning in glibc. -/
def knownList : List String :=
  ["exit", "_exit", "abort", "__libc_fatal", "__assert_fail", "__stack_chk_fail", "__malloc_assert",
    "_dl_signal_error", "__cxa_throw", "_ZSt20__throw_out_of_rangePKc", "_ZSt19__throw_logic_errorPKc",
    "_ZSt17__throw_bad_allocv", "_ZSt24__throw_invalid_argumentPKc"]

structure State where
  functions : Nat → Function
  nonReturnList : List Nat

namespace State

def inList (s : State) (f : Nat) : Bool := s.nonReturnList.contains f

def set (s : State) (f : Nat) (function : Function) : State :=
  { s with functions := Function.update s.functions f function }

/-- `nonReturnList` is a set. -/
def insert (s : State) (f : Nat) : State :=
  { s with nonReturnList := if s.inList f then s.nonReturnList else f :: s.nonReturnList }

end State

def hasLinkToNeverReturn (s : State) : Target → Bool
  | .plt (some name) => knownList.contains name
  | .function f => !(s.functions f).returns || s.inList f || knownList.any (s.functions f).hasName
  | _ => false

def hasLinkToGNUError (s : State) : Target → Bool
  | .plt (some name) => name == "error"
  | .function f => (s.functions f).hasName "error"
  | _ => false

/-! ## The search of one function -/

section Search

variable (s : State)

/-- The loop over the instructions of a block: `none` returns at once, otherwise the loop
ends with `ret`. The marks it sets are those that `visit` has set before. -/
def scan : List Instruction → Option Bool
  | .controlFlow cfi :: rest =>
    let returns := cfi.returns && !hasLinkToNeverReturn s cfi.target
    match cfi.mnemonic, cfi.target with
    | .conditional, .function _ => some (!returns)
    | _, _ => if returns then scan rest else none
  | _ :: rest => scan rest
  | [] => some true

/-- `ret & t`; the answer -1 for a block that is still open is `none` and changes nothing. -/
def combine (ret : Bool) : Option Bool → Bool
  | none => ret
  | some t => ret && t

/-- `noreturn_done`. -/
abbrev Done := List (Nat × Bool)

/-- The answer for a block of `cfg` on a path; no result at all is running out of fuel. -/
def isNonReturn (cfg : Function) : Nat → List Nat → Nat → StateT Done Option (Option Bool)
  | 0, _, _ => failure
  | fuel + 1, visited, bl => do
    match (← get).lookup bl with
    | some ret => return some ret
    | none =>
      if bl ∈ visited then return none
      else match cfg.blocks[bl]? with
        | none => failure
        | some block =>
          match scan s block.instructions with
          | none => return some true
          | some ret =>
            let ret ← (cfg.forwardLinks bl).foldlM
              (fun ret dest => combine ret <$> isNonReturn cfg fuel (bl :: visited) dest) ret
            let ret := ret && !(cfg.forwardLinks bl).isEmpty
            modify ((bl, ret) :: ·)
            return some ret

/-- A path has each block at most once. -/
def neverReturns (function : Function) : Option Bool :=
  if function.blocks.isEmpty then some false
  else do
    let (ret, _) ← (isNonReturn s function (function.blocks.length + 1) [] 0).run []
    return ret == some true

end Search

/-! ## The pass -/

/-- An instruction marked in place. -/
def Instruction.mark (p : ControlFlowInstruction → Bool) : Instruction → Instruction
  | .controlFlow cfi => .controlFlow (if p cfi then cfi.setNonreturn else cfi)
  | i => i

theorem Instruction.isJump_mark (p : ControlFlowInstruction → Bool) (i : Instruction) : (i.mark p).isJump = i.isJump := by
  cases i with
  | controlFlow cfi =>
    simp only [mark, isJump]
    split <;> rfl
  | _ => rfl

/-- Marks by the place of an instruction in its block. -/
def Block.mark (p : Nat → ControlFlowInstruction → Bool) (b : Block) : Block where
  init := b.init.mapIdx fun i instr => instr.mark (p i)
  last := b.last.mark (p b.init.length)
  jumpsLast := by
    intro i hi
    obtain ⟨k, hk, rfl⟩ := List.mem_mapIdx.1 hi
    rw [Instruction.isJump_mark]
    exact b.jumpsLast _ (List.getElem_mem hk)

/-- Marks by the block and the place in it. -/
def Function.mark (p : Nat → Nat → ControlFlowInstruction → Bool) (f : Function) : Function :=
  { f with blocks := f.blocks.mapIdx fun b block => block.mark (p b) }

section Pass

variable (arg0NonZero : Function → Nat → Nat → Bool)

/-- Both loops of step 1: calls to functions known not to return, then `error()` calls. -/
def markCalls (s : State) (f : Function) : Function :=
  let f := f.mark fun _ _ cfi => hasLinkToNeverReturn s cfi.target
  f.mark fun b i cfi => cfi.returns && hasLinkToGNUError s cfi.target && arg0NonZero f b i

/-- `visit` of a function. -/
def visit (s : State) (f : Nat) : Option State := do
  if (s.functions f).returns then
    let s := s.set f (markCalls arg0NonZero s (s.functions f))
    if ← neverReturns s (s.functions f) then
      return (s.set f { s.functions f with nonreturn := true }).insert f
    else return s
  else return s

/-- `visit` of the function list; `none` when the fuel runs out. -/
def visitList (functionList : List Nat) : Nat → State → Option State
  | 0, _ => none
  | fuel + 1, s => do
    let size := s.nonReturnList.length
    let s ← functionList.foldlM (visit arg0NonZero) s
    if size = s.nonReturnList.length then return s else visitList functionList fuel s

end Pass

end Egalito.NonReturn
