import Mathlib.Logic.Function.Basic
import Mathlib.Tactic
/-!
# Chunks and their positions

The part of the chunk hierarchy that `ChunkMutator` edits: functions, blocks and
instructions, their parent and sibling pointers, their child lists and sizes,
and the `Position` classes of `chunk/position.h`.

A chunk is named by an id, and `none` stands for a null pointer. The lists and
the module above a function neither store a size nor have an address, so the
chain of parents ends at a function. The `chunk` that an `OffsetPosition` refers
to is always the chunk that holds it, so it is not stored again.
-/

namespace Egalito.Mutator

abbrev ChunkId := Nat

/-- `address_t`, with the wrap-around of its arithmetic. -/
abbrev Address := BitVec 64

inductive Kind
  | function
  | block
  | instruction
deriving DecidableEq, Repr

/-- What the `dynamic_cast` in the generic operations of a `ChunkListImpl` accepts. -/
def Kind.fits : Kind → Kind → Bool
  | .function, .block => true
  | .block, .instruction => true
  | _, _ => false

/-- The pointers between chunks. -/
structure Tree where
  kind : ChunkId → Kind
  parent : ChunkId → Option ChunkId
  previousSibling : ChunkId → Option ChunkId
  nextSibling : ChunkId → Option ChunkId
  children : ChunkId → List ChunkId

/-- A chunk and the chunks above it. No chunk is more than two levels below a function. -/
def Tree.ancestors (t : Tree) (c : ChunkId) : List ChunkId :=
  match t.parent c with
  | none => [c]
  | some p =>
    match t.parent p with
    | none => [c, p]
    | some q => [c, p, q]

/-- The tree with `getSize` of every chunk: the stored size of a function or a
block, the size of its semantic for an instruction. -/
structure Heap extends Tree where
  size : ChunkId → Nat

/-! ## Positions -/

inductive Position
  | absolute (address : Address)
  | trackedAbsolute (address : Address) (generation : Nat)
  | offset (offset : Address)
  | subsequent (afterThis : ChunkId)
  | cachedOffset (offset cache : Address)
  | cachedSubsequent (afterThis : ChunkId) (cache : Address)
  | generationalOffset (offset cache : Address) (authority : Option ChunkId) (generation : Nat)
  | generationalSubsequent (afterThis : ChunkId) (cache : Address) (authority : Option ChunkId)
      (generation : Nat)
deriving DecidableEq, Repr

namespace Position

def getGeneration : Position → Nat
  | trackedAbsolute _ g => g
  | generationalOffset _ _ _ g => g
  | generationalSubsequent _ _ _ g => g
  | _ => 0

/-- Ignored by the positions that do not track a generation. -/
def setGeneration (gen : Nat) : Position → Position
  | trackedAbsolute a _ => trackedAbsolute a gen
  | generationalOffset o c a _ => generationalOffset o c a gen
  | generationalSubsequent t c a _ => generationalSubsequent t c a gen
  | p => p

def setOffset (offset : Address) : Position → Position
  | .offset _ => .offset offset
  | cachedOffset _ c => cachedOffset offset c
  | generationalOffset _ c a g => generationalOffset offset c a g
  | p => p

def setCache (cache : Address) : Position → Position
  | cachedOffset o _ => cachedOffset o cache
  | cachedSubsequent t _ => cachedSubsequent t cache
  | generationalOffset o _ a g => generationalOffset o cache a g
  | generationalSubsequent t _ a g => generationalSubsequent t cache a g
  | p => p

def cache : Position → Address
  | cachedOffset _ c => c
  | cachedSubsequent _ c => c
  | generationalOffset _ c _ _ => c
  | generationalSubsequent _ c _ _ => c
  | _ => 0

/-- Only for what is a `SubsequentPosition`, with or without a decorator. -/
def setAfterThis (afterThis : ChunkId) : Position → Position
  | subsequent _ => subsequent afterThis
  | cachedSubsequent _ c => cachedSubsequent afterThis c
  | generationalSubsequent _ c a g => generationalSubsequent afterThis c a g
  | p => p

def setAuthority (authority : Option ChunkId) : Position → Position
  | generationalOffset o c _ g => generationalOffset o c authority g
  | generationalSubsequent t c _ g => generationalSubsequent t c authority g
  | p => p

/-- `dynamic_cast<AbsolutePosition *>`. -/
def isAbsolute : Position → Bool
  | absolute _ => true
  | trackedAbsolute _ _ => true
  | _ => false

end Position

abbrev Positions := ChunkId → Option Position

/-- A computation on the position objects; `none` is a null dereference, or no fuel left. -/
abbrev PosM := StateT Positions Option

namespace PosM

/-- `c->getPosition()`, to be dereferenced. -/
def position (c : ChunkId) : PosM Position := fun ps =>
  (ps c).map (·, ps)

def setPosition (c : ChunkId) (p : Option Position) : PosM Unit := fun ps =>
  some ((), Function.update ps c p)

end PosM

open PosM

section Addresses

variable (h : Heap)

section Classes

-- the address of the chunks that a position depends on
variable (getAddress : ChunkId → PosM Address)

/-- `OffsetPosition::get`. -/
def offsetGet (c : ChunkId) (offset : Address) : PosM Address :=
  match h.parent c with
  | none => return 0
  | some parent => do
    let address ← getAddress parent
    return address + offset

/-- `OffsetPosition::recalculate`: the new offset. -/
def offsetRecalculate (c : ChunkId) : PosM Address :=
  match h.parent c with
  | none => return 0
  | some parent =>
    match h.previousSibling c with
    | none => return 0
    | some prev => do
      let prevAddress ← getAddress prev
      let parentAddress ← getAddress parent
      return prevAddress - parentAddress + BitVec.ofNat 64 (h.size prev)

/-- `SubsequentPosition::get`. -/
def subsequentGet (afterThis : ChunkId) : PosM Address := do
  let address ← getAddress afterThis
  return address + BitVec.ofNat 64 (h.size afterThis)

/-- `Position::recalculate` on the position `p` of `c`. The decorators fill their
cache from the class they decorate. -/
def recalculated (c : ChunkId) (p : Position) : PosM Position :=
  match p with
  | .absolute _ | .trackedAbsolute _ _ | .subsequent _ => return p
  | .offset _ => do
    let offset ← offsetRecalculate h getAddress c
    return .offset offset
  | .cachedOffset _ _ | .generationalOffset _ _ _ _ => do
    let offset ← offsetRecalculate h getAddress c
    let address ← offsetGet h getAddress c offset
    return (p.setOffset offset).setCache address
  | .cachedSubsequent afterThis _ | .generationalSubsequent afterThis _ _ _ => do
    let address ← subsequentGet h getAddress afterThis
    return p.setCache address

/-- `GenerationalPositionDecorator::get` on the position `p` of `c`. -/
def generationalGet (c : ChunkId) (p : Position) (authority : Option ChunkId) : PosM Address :=
  match authority with
  | none => return p.cache
  | some authority => do
    let current := (← position authority).getGeneration
    if p.getGeneration = current then
      return p.cache
    else
      let p ← recalculated h getAddress c p
      setPosition c (p.setGeneration (← position authority).getGeneration)
      return p.cache

end Classes

/-- `Chunk::getAddress`, that is `Position::get`. -/
def getAddress : Nat → ChunkId → PosM Address
  | 0, _ => failure
  | fuel + 1, c => do
    match ← position c with
    | .absolute address | .trackedAbsolute address _ => return address
    | .offset offset => offsetGet h (getAddress fuel) c offset
    | .subsequent afterThis => subsequentGet h (getAddress fuel) afterThis
    | .cachedOffset _ cache | .cachedSubsequent _ cache => return cache
    | .generationalOffset offset cache authority generation =>
      generationalGet h (getAddress fuel) c (.generationalOffset offset cache authority generation) authority
    | .generationalSubsequent afterThis cache authority generation =>
      generationalGet h (getAddress fuel) c (.generationalSubsequent afterThis cache authority generation)
        authority

/-- `c->getPosition()->recalculate()`. -/
def recalculate (fuel : Nat) (c : ChunkId) : PosM Unit := do
  let p ← recalculated h (getAddress h fuel) c (← position c)
  setPosition c p

/-- `GenerationalPositionDecorator::findAuthority` on the position `p` of `c`; null
for the other classes. -/
def findAuthority : Nat → ChunkId → Position → PosM (Option ChunkId)
  | 0, _, _ => failure
  | fuel + 1, c, p => do
    match p with
    | .generationalOffset _ _ authority generation =>
      findFrom fuel authority generation (h.parent c)
    | .generationalSubsequent afterThis _ authority generation =>
      findFrom fuel authority generation (some afterThis)
    | _ => return none
where
  findFrom (fuel : Nat) (authority : Option ChunkId) (generation : Nat) (dependency : Option ChunkId) :
      PosM (Option ChunkId) := do
    -- the old authority is kept while its generation is the current one
    if let some authority := authority then
      if generation = (← position authority).getGeneration then
        return some authority
    match dependency with
    | none => return none
    | some dependency => do
      let authority ← findAuthority fuel dependency (← position dependency)
      return some (authority.getD dependency)

/-- `Position::updateAuthority` on the position `p` of `c`. -/
def authorityUpdated (fuel : Nat) (c : ChunkId) (p : Position) : PosM Position :=
  match p with
  | .generationalOffset .. | .generationalSubsequent .. => do
    let authority ← findAuthority h fuel c p
    return p.setAuthority authority
  | _ => return p

/-- `c->getPosition()->updateAuthority()`. -/
def updateAuthority (fuel : Nat) (c : ChunkId) : PosM Unit := do
  let p ← authorityUpdated h fuel c (← position c)
  setPosition c p

end Addresses

/-! ## `PositionFactory` -/

inductive Mode
  | generationOffset
  | generationSubsequent
  | cachedOffset
  | cachedSubsequent
  | offset
  | subsequent
deriving DecidableEq, Repr

namespace Mode

def needsGenerationTracking (mode : Mode) : Bool :=
  mode == generationOffset || mode == generationSubsequent

def needsUpdatePasses (mode : Mode) : Bool :=
  mode == cachedOffset || mode == cachedSubsequent || mode == offset

def needsSpecialCaseFirst (mode : Mode) : Bool :=
  mode == subsequent || mode == cachedSubsequent || mode == generationSubsequent

end Mode

/-- The factory's mode, and a bound on the length of a chain of positions. -/
structure Env where
  mode : Mode
  fuel : Nat

def Env.makeAbsolutePosition (env : Env) (address : Address) : Position :=
  if env.mode.needsGenerationTracking then .trackedAbsolute address 0 else .absolute address

section Factory

variable (env : Env) (h : Heap)

/-- The constructor of a `GenerationalPositionDecorator`. -/
def constructGenerational (c : ChunkId) (p : Position) : PosM Position := do
  let p ← authorityUpdated h env.fuel c p
  recalculated h (getAddress h env.fuel) c p

/-- The constructor of a `CachedPositionDecorator`. -/
def constructCached (c : ChunkId) (p : Position) : PosM Position :=
  recalculated h (getAddress h env.fuel) c p

/-- `PositionFactory::makePosition`. -/
def makePosition (previous : Option ChunkId) (c : ChunkId) (offset : Address) : PosM Position :=
  match previous with
  | none =>
    if env.mode.needsGenerationTracking then do
      let p ← constructGenerational env h c (.generationalOffset 0 0 none 0)
      return p.setOffset offset
    else
      return .offset offset
  | some previous =>
    match env.mode with
    | .generationOffset => do
      let p ← constructGenerational env h c (.generationalOffset 0 0 none 0)
      return p.setOffset offset
    | .generationSubsequent => constructGenerational env h c (.generationalSubsequent previous 0 none 0)
    | .cachedOffset => do
      let p ← constructCached env h c (.cachedOffset 0 0)
      recalculated h (getAddress h env.fuel) c (p.setOffset offset)
    | .cachedSubsequent => constructCached env h c (.cachedSubsequent previous 0)
    | .offset => return .offset offset
    | .subsequent => return .subsequent previous

end Factory

end Egalito.Mutator
