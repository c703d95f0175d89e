import Egalito.Analysis.IndexTable
import Egalito.Analysis.SlicingTree
import Egalito.Lib.Recursion
/-!
# The search for the bound of a jump table

`JumptableDetection::parseBound` and the searches it is mutually recursive with,
for x86-64. It tries one kind of evidence after the other; register moves and
index tables lead to another call, on the definition of the register. The loops
over blocks and the comparison of memory locations come in as parameters.
-/

open Egalito.Lib

namespace Egalito.Analysis

/-- `info->entries`, and the member `indexTables`. -/
structure Memory where
  entries : BitVec 64
  indexTables : IndexTables

/-- A call of `parseBound`: its arguments, with `info->jumpState`, and the memory. -/
structure Call (State : Type) where
  state : State
  reg : Int
  jumpState : State
  memory : Memory

/-- A search changes the memory and calls `parseBound`. -/
abbrev BoundSearch (State : Type) := StateT Memory (Proc (Call State) (Bool × Memory))

/-- What the search reads besides the use-def graph. -/
structure JumptableDetection (State : Type) where
  graph : UseDefGraph State
  /-- `getInstruction()->getParent()`, the block. -/
  parent : State → Nat
  elf : ElfMap
  /-- `getBoundFromCompare(state, bound, info)` for the jump state: the entries, when it returns true. -/
  comparedEntries : State → BitVec 64 → State → Option (BitVec 64)
  /-- The jumps before the jump state, from `collectJumpsTo`. -/
  collectJumpsTo : State → List State
  valueReaches : State → Int → State → Int → BitVec 64 → Option (BitVec 64)
  /-- The last states of the blocks that precede the block of a state. -/
  precedingJumps : State → List State
  /-- The last states of the blocks before the jump state, in reverse postorder of the reversed graph. -/
  precedingStates : State → List State
  /-- Whether the comparison is on the way from a definition of the register to the jump state. -/
  isOnTheWay : State → Int → State → State → Bool
  /-- `getBoundFromLoad(state, reg, info)`: the entries, when it returns true. -/
  loadedEntries : State → Int → State → Option (BitVec 64)
  parseBaseAddress : State → Int → Option (BitVec 64)
  /-- `MemLocation` of the one address is that of the other. -/
  sameLocation : TreeNode → TreeNode → Bool

/-- `X86Register::FLAGS`. -/
def flags : Int := 16

/-! ## Tree forms -/

/-- `ComparisonForm`: a register with a constant. -/
def comparisonForm : TreeNode → Option (Int × BitVec 64)
  | .comparison (.physicalRegister reg _) (.constant bound) => some (reg, bound)
  | _ => none

/-- `IndexTableAccessForm`: the address that is read, its base register, and the index register with its scale. -/
def indexTableAccessForm : TreeNode → Option (TreeNode × Int × Int × BitVec 64)
  | .unary (.dereference _)
      (.binary .addition (.physicalRegister reg₁ w₁)
        (.binary .multiplication (.physicalRegister reg₂ w₂) (.constant scale))) =>
    some (.binary .addition (.physicalRegister reg₁ w₁)
      (.binary .multiplication (.physicalRegister reg₂ w₂) (.constant scale)), reg₁, reg₂, scale)
  | _ => none

/-- `ComparisonForm2`: an entry of an index table with a constant. -/
def comparisonForm2 : TreeNode → Option (TreeNode × BitVec 64)
  | .comparison tree (.constant bound) => (indexTableAccessForm tree).map fun access => (access.1, bound)
  | _ => none

/-- `AndForm`. -/
def andForm : TreeNode → Option (BitVec 64)
  | .binary .and (.physicalRegister _ _) (.constant mask) => some mask
  | _ => none

/-- `SubtractionForm`. -/
def subtractionForm : TreeNode → Option (Int × Int)
  | .binary .subtraction (.physicalRegister reg₀ _) (.physicalRegister reg₁ _) => some (reg₀, reg₁)
  | _ => none

def moveForm : TreeNode → Option Int
  | .physicalRegister reg _ => some reg
  | _ => none

namespace JumptableDetection

variable {State : Type} (d : JumptableDetection State)

/-! ## The searches -/

def setEntries (entries : BitVec 64) : BoundSearch State Unit := modify fun memory => { memory with entries }

/-- `parseBound(state, reg, info)` from one of the other searches. -/
def callParseBound (state : State) (reg : Int) (jumpState : State) : BoundSearch State Bool :=
  fun memory => .call ⟨state, reg, jumpState, memory⟩ .ret

def getBoundFromCompare (state : State) (bound : BitVec 64) (jumpState : State) : BoundSearch State Bool :=
  match d.comparedEntries state bound jumpState with
  | some entries => do
    setEntries entries
    return true
  | none => return false

/-- `FlowUtil::searchDownUse`. -/
def searchDownUse {β : Type} (form : TreeNode → Option β) (state : State) (reg : Int)
    (parser : State → Int → β → BoundSearch State Bool) : BoundSearch State Bool :=
  (d.graph.getRegUse state reg).anyM fun s =>
    (d.graph.getRegDefList s).anyM fun (r, tree) =>
      match tree.bind form with
      | some cap => parser s r cap
      | none => return false

/-- `FlowUtil::searchUpDef`. -/
def searchUpDef {β : Type} (form : TreeNode → Option β) (state : State) (reg : Int)
    (parser : State → β → BoundSearch State Bool) : BoundSearch State Bool :=
  (d.graph.getRegRef state reg).anyM fun s =>
    match (d.graph.getRegDef s reg).bind form with
    | some cap => parser s cap
    | none => return false

/-- The parser of `parseBound`: the flags of the comparison have to reach a jump. -/
def parseComparison (jumpState s : State) (r : Int) (cap : Int × BitVec 64) : BoundSearch State Bool := do
  if r = flags then
    if ← d.getBoundFromCompare s cap.2 jumpState then
      (d.collectJumpsTo jumpState).anyM fun jump => do
        match d.valueReaches s flags jump flags (← get).entries with
        | some bound => do
          setEntries bound
          return true
        | none => return false
    else return false
  else return false

def getBoundFromAnd (state : State) (reg : Int) : BoundSearch State Bool :=
  match (d.graph.getRegDef state reg).bind andForm with
  | some mask => do
    setEntries (mask + 1)
    return true
  | none => return false

def getBoundFromSub (state : State) (reg : Int) : BoundSearch State Bool :=
  match (d.graph.getRegDef state reg).bind subtractionForm with
  | some (_, boundReg) => (d.graph.getRegRef state boundReg).anyM fun ref => d.getBoundFromAnd ref boundReg
  | none => return false

def getBoundFromMove (jumpState : State) (state : State) (reg : Int) : BoundSearch State Bool :=
  match (d.graph.getRegDef state reg).bind moveForm with
  | some reg' => do
    -- search downward
    if ← (d.graph.getRegUse state reg).anyM fun s =>
      match (d.graph.getRegDef s flags).bind comparisonForm with
      | some (reg₀, bound) => if reg₀ = reg then d.getBoundFromCompare s bound jumpState else return false
      | none => return false
    then return true
    -- search upward
    else callParseBound state reg' jumpState
  | none => return false

/-- `parseBound` with a copy of `*info`, whose jump state is the access, for a table that is not known: the entries it
leaves in the copy. -/
def parseIndexBound (known : Option IndextableInfo) (state : State) (reg : Int) : BoundSearch State (BitVec 64) := do
  if known.isSome then return 0
  else
  let entries := (← get).entries
  let _ ← callParseBound state reg state
  let indexEntries := (← get).entries
  setEntries entries
  return indexEntries

/-- The index table at `base`. Without the assertion, a table of another scale has the maximum 0. -/
def boundFromTable (state : State) (base : BitVec 64) (reg₂ : Int) (scale : BitVec 64) : BoundSearch State Bool := do
  let indexTables := (← get).indexTables
  let parsedEntries ← parseIndexBound (indexTables base) state reg₂
  let (table, indexTables) := indexTable indexTables base scale (parsedEntries, (← get).indexTables)
  modify fun memory => { memory with indexTables }
  match boundFromEntries d.elf base table with
  | .entries count => do
    setEntries count
    return true
  | .aborts => do
    setEntries 1
    return true
  | .notFound => return false

def getBoundFromIndexTable (jumpState : State) (state : State) (reg : Int) : BoundSearch State Bool :=
  match (d.graph.getRegDef state reg).bind indexTableAccessForm with
  | some (location, reg₁, reg₂, scale) => do
    if ← (d.graph.getRegRef state reg).anyM fun s =>
      d.searchDownUse comparisonForm2 s reg₂ fun s' r cap =>
        if r = flags && d.sameLocation location cap.1 then d.getBoundFromCompare s' cap.2 jumpState else return false
    then return true
    else
      match d.parseBaseAddress state reg₁ with
      | some base => d.boundFromTable state base reg₂ scale
      | none => return false
  | none => return false

def getBoundFromArgument (jumpState : State) (state : State) (reg : Int) : BoundSearch State Bool :=
  (d.precedingStates jumpState).anyM fun s =>
    d.searchUpDef comparisonForm s flags fun s' cap =>
      if d.isOnTheWay state reg jumpState s' && cap.1 == reg then d.getBoundFromCompare s' cap.2 jumpState
      else return false

def getBoundFromLoad (jumpState : State) (state : State) (reg : Int) : BoundSearch State Bool :=
  match d.loadedEntries state reg jumpState with
  | some entries => do
    setEntries entries
    return true
  | none => return false

def getBoundFromControlFlow (jumpState : State) (state : State) (reg : Int) : BoundSearch State Bool :=
  (d.precedingJumps state).anyM fun jstate =>
    (d.graph.getRegRef jstate flags).anyM fun test =>
      match (d.graph.getRegDef test flags).bind comparisonForm with
      | some (testReg, bound) => do
        if ← d.getBoundFromCompare test bound jumpState then
          match d.valueReaches test testReg state reg (← get).entries with
          | some bound => do
            setEntries bound
            return true
          | none => do
            setEntries 0
            return false
        else return false
      | none => return false

variable [DecidableEq State]

/-- `parseBound`: each search is tried when the ones before it have not found a bound. -/
def parseBound (jumpState : State) (state : State) (reg : Int) : BoundSearch State Bool :=
  let refs := d.graph.getRegRef state reg
  [ (refs.filter (· ≠ state)).anyM fun s => d.searchDownUse comparisonForm s reg (d.parseComparison jumpState),
    (refs.filter fun s => s ≠ state && d.parent s == d.parent state).anyM fun s =>
      [d.getBoundFromSub s reg, d.getBoundFromAnd s reg, d.getBoundFromMove jumpState s reg,
        d.getBoundFromIndexTable jumpState s reg].anyM id,
    if refs.all fun s => (d.graph.getRegDef s reg).isNone then d.getBoundFromArgument jumpState state reg
    else return false,
    d.getBoundFromLoad jumpState state reg,
    refs.anyM fun s => d.getBoundFromMove jumpState s reg,
    d.getBoundFromControlFlow jumpState state reg ].anyM id

def body (call : Call State) : Proc (Call State) (Bool × Memory) (Bool × Memory) :=
  d.parseBound call.jumpState call.state call.reg call.memory

end JumptableDetection

end Egalito.Analysis
