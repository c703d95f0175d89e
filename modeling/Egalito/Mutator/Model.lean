import Egalito.Mutator.Position
/-!
# `ChunkMutator`

The operations of `operation/mutator.cpp`, statement by statement. `none` is a
failed assertion or a null dereference. A mutator is given by the chunk it
edits; its destructor is the step `destroy`, which refreshes the positions.
-/

namespace Egalito.Mutator

open PosM

/-- All chunks with their positions. -/
structure State extends Heap where
  pos : Positions

namespace State

variable (s : State) (c : ChunkId)

def setParent (parent : Option ChunkId) : State := { s with parent := Function.update s.parent c parent }

def setPreviousSibling (prev : Option ChunkId) : State :=
  { s with previousSibling := Function.update s.previousSibling c prev }

def setNextSibling (next : Option ChunkId) : State :=
  { s with nextSibling := Function.update s.nextSibling c next }

def setChildren (list : List ChunkId) : State := { s with children := Function.update s.children c list }

def setSize (size : Nat) : State := { s with size := Function.update s.size c size }

def setPosition (p : Option Position) : State := { s with pos := Function.update s.pos c p }

/-- Runs a computation on the positions. -/
def updatePos (m : PosM Unit) : Option State :=
  (m s.pos).map fun r => { s with pos := r.2 }

/-- `ComputedSize::adjustBy`. Sizes are lengths of byte vectors, so they are below
`2 ^ 63`, and the assertion on the sign of the sum keeps them there. -/
def addToSize (add : Int) : Option State :=
  let sum := (s.size c : Int) + add
  if 0 ≤ sum ∧ sum < 2 ^ 63 then some (s.setSize c sum.toNat) else none

/-! ### The generic operations of `ChunkListImpl` -/

variable (child : ChunkId)

def genericAdd : State :=
  if (s.kind c).fits (s.kind child) then s.setChildren c (s.children c ++ [child]) else s

def genericInsertAt (index : Nat) : State :=
  if (s.kind c).fits (s.kind child) then s.setChildren c ((s.children c).insertIdx index child) else s

def genericRemove : State :=
  if (s.kind c).fits (s.kind child) then s.setChildren c ((s.children c).erase child) else s

def genericIndexOf : Option Nat :=
  if (s.kind c).fits (s.kind child) then (s.children c).idxOf? child else none

/-- `new Block()`. -/
def newBlock : State :=
  { s with
    kind := Function.update s.kind c .block
    parent := Function.update s.parent c none
    previousSibling := Function.update s.previousSibling c none
    nextSibling := Function.update s.nextSibling c none
    children := Function.update s.children c []
    size := Function.update s.size c 0
    pos := Function.update s.pos c none }

end State

namespace ChunkMutator

/-! ## Positions and generations -/

section Positions

variable (env : Env) (h : Heap)

/-- The child before `child` in the list of `chunk`, as a `ChunkCursor` finds it. -/
def cursorPrev (chunk child : ChunkId) : PosM (Option ChunkId) :=
  match (h.children chunk).idxOf? child with
  | none => failure
  | some 0 => return none
  | some (index + 1) => return (h.children chunk)[index]?

def makePositionFor (chunk child : ChunkId) : PosM Unit := do
  match ← cursorPrev h chunk child with
  | some prev => do
    let prevAddress ← getAddress h env.fuel prev
    let address ← getAddress h env.fuel chunk
    setPosition child (← makePosition env h (some prev) child (prevAddress - address))
  | none => do
    setPosition child (← makePosition env h none child 0)

/-- The largest generation from a chunk up to the first absolute position. -/
def maxGeneration : List ChunkId → Nat → PosM Nat
  | [], gen => return gen
  | c :: cs, gen => do
    let p ← position c
    if p.isAbsolute then return max gen p.getGeneration
    else maxGeneration cs (max gen p.getGeneration)

/-- Sets rising generations up to the first absolute position. -/
def raiseGenerations : List ChunkId → Nat → PosM Unit
  | [], _ => return
  | c :: cs, gen => do
    let p ← position c
    setPosition c (p.setGeneration gen)
    if p.isAbsolute then return else raiseGenerations cs (gen + 1)

def updateAuthorityHelper : Nat → ChunkId → PosM Unit
  | 0, _ => failure
  | depth + 1, root => do
    updateAuthority h env.fuel root
    (h.children root).forM (updateAuthorityHelper depth)

def updateGenerationCounts (child : ChunkId) : PosM Unit := do
  if env.mode.needsGenerationTracking then
    let gen ← maxGeneration (h.ancestors child) 0
    raiseGenerations (h.ancestors child) (gen + 1)
    updateAuthorityHelper env h env.fuel child

def updatePositionHelper : Nat → ChunkId → PosM Unit
  | 0, _ => failure
  | depth + 1, root => do
    if ((← get) root).isSome then
      recalculate h env.fuel root
      (h.children root).forM (updatePositionHelper depth)

def updatePositions (chunk : ChunkId) : PosM Unit := do
  if env.mode.needsUpdatePasses then
    (h.ancestors chunk).forM fun c => do
      if (((← get) c).map Position.isAbsolute).getD false then
        updatePositionHelper env h env.fuel c

end Positions

/-! ## Sibling pointers -/

def setPreviousSibling (c : ChunkId) (prev : Option ChunkId) (s : State) : State :=
  let s := s.setPreviousSibling c prev
  match prev with
  | none => s
  | some prev => s.setPosition c ((s.pos c).map (·.setAfterThis prev))

def setNextSibling (c : ChunkId) (next : Option ChunkId) (s : State) : State :=
  let s := s.setNextSibling c next
  match next with
  | none => s
  | some next => s.setPosition next ((s.pos next).map (·.setAfterThis c))

/-- The pointers set by `append`. -/
def linkLast (chunk child : ChunkId) (s : State) : State :=
  match (s.children chunk).getLast? with
  | some prev => setNextSibling prev (some child) (setPreviousSibling child (some prev) s)
  | none => (s.setPreviousSibling child none).setNextSibling child none

/-- The pointers set by `insertAfter`. -/
def linkAfter (insertPoint : Option ChunkId) (newChunk : ChunkId) (s : State) : State :=
  let s := setPreviousSibling newChunk insertPoint s
  match insertPoint with
  | none => s.setNextSibling newChunk none
  | some point =>
    let next := s.nextSibling point
    let s := match next with
      | some next => setPreviousSibling next (some newChunk) s
      | none => s
    setNextSibling point (some newChunk) (setNextSibling newChunk next s)

/-- The pointers set by `insertBefore`. -/
def linkBefore (point newChunk : ChunkId) (s : State) : State :=
  let prev := s.previousSibling point
  let s := match prev with
    | some prev => setNextSibling prev (some newChunk) s
    | none => s
  let s := setNextSibling newChunk (some point) s
  let s := setPreviousSibling newChunk prev s
  setPreviousSibling point (some newChunk) s

/-- The pointers set by `remove`. -/
def unlink (child : ChunkId) (s : State) : State :=
  let prev := s.previousSibling child
  let next := s.nextSibling child
  let s := match prev with
    | some prev => setNextSibling prev next s
    | none => s
  match next with
  | some next => setPreviousSibling next prev s
  | none => s

/-! ## Pointers and child lists -/

/-- What `append` does to the pointers and the list. -/
def placeLast (chunk child : ChunkId) (s : State) : State :=
  let s := linkLast chunk child s
  let s := s.setParent child (some chunk)
  s.genericAdd chunk child

/-- What `insertAfter` does to the pointers and the list. -/
def placeAfter (chunk : ChunkId) (insertPoint : Option ChunkId) (newChunk : ChunkId) (s : State) : State :=
  let s := linkAfter insertPoint newChunk s
  -- an insert point that is not in the list has the index -1
  let index := match insertPoint with
    | some point => match s.genericIndexOf chunk point with
      | some index => index + 1
      | none => 0
    | none => 0
  let s := s.genericInsertAt chunk newChunk index
  s.setParent newChunk (some chunk)

/-- What `insertBefore` does to the pointers and the list; the insert point must be in it. -/
def placeBefore (chunk point newChunk : ChunkId) (s : State) : Option State := do
  let s := linkBefore point newChunk s
  let index ← s.genericIndexOf chunk point
  let s := s.genericInsertAt chunk newChunk index
  return s.setParent newChunk (some chunk)

/-! ## Operations -/

section Operations

variable (env : Env)

/-- `if(!child->getPosition()) makePositionFor(child)`. -/
def ensurePosition (chunk child : ChunkId) (s : State) : Option State :=
  if (s.pos child).isSome then some s else s.updatePos (makePositionFor env s.toHeap chunk child)

/-- The loop over a chunk and its ancestors that adds the size of `child`. -/
def growSizes (chunk child : ChunkId) (s : State) : Option State :=
  (s.ancestors chunk).foldlM (fun s c => s.addToSize c (s.size child)) s

def updateSizesAndAuthorities (chunk child : ChunkId) (s : State) : Option State := do
  let s ← growSizes chunk child s
  s.updatePos (updateGenerationCounts env s.toHeap child)

/-- The loop that takes off a removed size where sizes are tracked. -/
def shrinkSizes (chunk : ChunkId) (removed : State → Nat) (s : State) : Option State :=
  (s.ancestors chunk).foldlM (fun s c => if s.size c ≠ 0 then s.addToSize c (-removed s) else some s) s

def append (chunk child : ChunkId) (s : State) : Option State := do
  let s := placeLast chunk child s
  let s ← ensurePosition env chunk child s
  updateSizesAndAuthorities env chunk child s

/-- The end of `insertAfter`: a block behind the new one gets a new position for its first child. -/
def refreshNext (newChunk : ChunkId) (s : State) : Option State :=
  match s.nextSibling newChunk with
  | none => some s
  | some next =>
    match s.children next with
    | [] => some s
    | nextChild :: _ =>
      let s := s.setPosition nextChild none
      s.updatePos (makePositionFor env s.toHeap next nextChild)

def insertAfter (chunk : ChunkId) (insertPoint : Option ChunkId) (newChunk : ChunkId) (s : State) :
    Option State := do
  let s := placeAfter chunk insertPoint newChunk s
  let s ← ensurePosition env chunk newChunk s
  let s ← updateSizesAndAuthorities env chunk newChunk s
  refreshNext env newChunk s

/-- The first entry of a list, and only it, has an `OffsetPosition` in the subsequent modes. -/
def specialCaseFirst (point newChunk : ChunkId) (s : State) : Option State :=
  if env.mode.needsSpecialCaseFirst ∧ s.previousSibling newChunk = none then
    s.updatePos do
      let p ← makePosition env s.toHeap (some newChunk) point (BitVec.ofNat 64 (s.size newChunk))
      PosM.setPosition point p
  else some s

def insertBefore (chunk : ChunkId) (insertPoint : Option ChunkId) (newChunk : ChunkId) (s : State) :
    Option State :=
  match insertPoint with
  | none => append env chunk newChunk s
  | some point => do
    let s ← placeBefore chunk point newChunk s
    let s ← ensurePosition env chunk newChunk s
    let s ← specialCaseFirst env point newChunk s
    updateSizesAndAuthorities env chunk newChunk s

def prepend (chunk child : ChunkId) (s : State) : Option State :=
  match s.children chunk with
  | [] => append env chunk child s
  | first :: _ => insertBefore env chunk (some first) child s

/-- Exchanges the semantics of two instructions, and with them their sizes. -/
def swapSemantics (x y : ChunkId) (s : State) : State :=
  (s.setSize x (s.size y)).setSize y (s.size x)

def insertBeforeJumpTo (chunk : ChunkId) (insertPoint : Option ChunkId) (newChunk : ChunkId) (s : State) :
    Option State :=
  match insertPoint with
  | none => insertBefore env chunk none newChunk s
  | some point => do
    let s ← insertAfter env chunk (some point) newChunk s
    return swapSemantics point newChunk s

def insertAllAfter (chunk : ChunkId) : Option ChunkId → List ChunkId → State → Option State
  | _, [], s => some s
  | insertPoint, new :: toBeInserted, s => do
    let s ← insertAfter env chunk insertPoint new s
    insertAllAfter chunk (some new) toBeInserted s

def insertAllBefore (chunk : ChunkId) (insertPoint : Option ChunkId) (toBeInserted : List ChunkId)
    (beforeJumpTo : Bool) (s : State) : Option State :=
  if beforeJumpTo then
    toBeInserted.reverse.foldlM (fun s new => insertBeforeJumpTo env chunk insertPoint new s) s
  else
    toBeInserted.foldlM (fun s new => insertBefore env chunk insertPoint new s) s

def remove (chunk child : ChunkId) (s : State) : Option State := do
  let s := unlink child s
  let s := s.genericRemove chunk child
  let s ← shrinkSizes chunk (fun s => s.size child) s
  s.updatePos (updateGenerationCounts env s.toHeap chunk)

/-- One pass of `removeLast`: the last child is dropped, its successor pointer in the
child before it is cleared. -/
def dropLastChild (chunk : ChunkId) (s : State) : Option (Nat × State) := do
  let last ← (s.children chunk).getLast?
  let s := match s.previousSibling last with
    | some prev => s.setNextSibling prev none
    | none => s
  return (s.size last, s.setChildren chunk (s.children chunk).dropLast)

def dropLastChildren (chunk : ChunkId) : Nat → State → Option (Nat × State)
  | 0, s => some (0, s)
  | n + 1, s => do
    let (size, s) ← dropLastChild chunk s
    let (removedSize, s) ← dropLastChildren chunk n s
    return (size + removedSize, s)

def removeLast (chunk : ChunkId) (n : Nat) (s : State) : Option State := do
  let (removedSize, s) ← dropLastChildren chunk n s
  let s ← shrinkSizes chunk (fun _ => removedSize) s
  s.updatePos (updateGenerationCounts env s.toHeap chunk)

/-- `modifiedChildSize`. -/
def modifiedChildSize (chunk child : ChunkId) (added : Int) (s : State) : Option State := do
  let s ← (s.ancestors chunk).foldlM (fun s c => s.addToSize c added) s
  s.updatePos (updateGenerationCounts env s.toHeap child)

/-- `splitBlockBefore` clears the pointers of an instruction it moves. -/
def clearPointers (s : State) (instr : ChunkId) : State :=
  (((s.setPreviousSibling instr none).setNextSibling instr none).setParent instr none).setPosition instr none

def appendMoved (newBlock : ChunkId) (s : State) (instr : ChunkId) : Option State := do
  let s ← append env newBlock instr s
  s.updatePos (makePositionFor env s.toHeap newBlock instr)

/-- `splitBlockBefore`; the id of the block it allocates is an argument. -/
def splitBlockBefore (chunk point newBlock : ChunkId) (s : State) : Option State := do
  let block ← s.parent point
  guard (s.kind block = .block)
  if s.children block = [] then
    return s
  let s := s.newBlock newBlock
  let s ← s.updatePos do
    let pointAddress ← getAddress s.toHeap env.fuel point
    let address ← getAddress s.toHeap env.fuel chunk
    PosM.setPosition newBlock (← makePosition env s.toHeap (some block) newBlock (pointAddress - address))
  -- for a point that is not in the list, removeLast would run past its beginning
  let leaveBehindCount ← (s.children block).idxOf? point
  let moveInstr := (s.children block).drop leaveBehindCount
  let s ← removeLast env block ((s.children block).length - leaveBehindCount) s
  let s := moveInstr.foldl clearPointers s
  let s ← moveInstr.foldlM (appendMoved env newBlock) s
  insertAfter env chunk (some block) newBlock s

end Operations

end ChunkMutator

/-! ## Runs -/

/-- The public operations, named after the members of `ChunkMutator`. -/
inductive Op
  | prepend (child : ChunkId)
  | append (child : ChunkId)
  | insertAfter (insertPoint : Option ChunkId) (newChunk : ChunkId)
  | insertBefore (insertPoint : Option ChunkId) (newChunk : ChunkId)
  | insertBeforeJumpTo (insertPoint : Option ChunkId) (newChunk : ChunkId)
  | insertAllAfter (insertPoint : Option ChunkId) (toBeInserted : List ChunkId)
  | insertAllBefore (insertPoint : Option ChunkId) (toBeInserted : List ChunkId) (beforeJumpTo : Bool)
  | remove (child : ChunkId)
  | removeLast (n : Nat)
  | splitBlockBefore (point newBlock : ChunkId)
deriving DecidableEq, Repr

inductive Step
  | call (chunk : ChunkId) (op : Op)
  | destroy (chunk : ChunkId)
deriving DecidableEq, Repr

section Runs

variable (env : Env)

open ChunkMutator in
def Op.run (chunk : ChunkId) (s : State) : Op → Option State
  | prepend child => ChunkMutator.prepend env chunk child s
  | append child => ChunkMutator.append env chunk child s
  | insertAfter insertPoint newChunk => ChunkMutator.insertAfter env chunk insertPoint newChunk s
  | insertBefore insertPoint newChunk => ChunkMutator.insertBefore env chunk insertPoint newChunk s
  | insertBeforeJumpTo insertPoint newChunk =>
    ChunkMutator.insertBeforeJumpTo env chunk insertPoint newChunk s
  | insertAllAfter insertPoint toBeInserted =>
    ChunkMutator.insertAllAfter env chunk insertPoint toBeInserted s
  | insertAllBefore insertPoint toBeInserted beforeJumpTo =>
    ChunkMutator.insertAllBefore env chunk insertPoint toBeInserted beforeJumpTo s
  | remove child => ChunkMutator.remove env chunk child s
  | removeLast n => ChunkMutator.removeLast env chunk n s
  | splitBlockBefore point newBlock => ChunkMutator.splitBlockBefore env chunk point newBlock s

/-- A mutator of an instruction fails in its first operation: there is no child list. -/
def Step.run (s : State) : Step → Option State
  | call chunk op => if s.kind chunk = .instruction then none else op.run env chunk s
  | destroy chunk => s.updatePos (ChunkMutator.updatePositions env s.toHeap chunk)

def exec (s : State) (steps : List Step) : Option State := steps.foldlM (Step.run env) s

end Runs

end Egalito.Mutator
