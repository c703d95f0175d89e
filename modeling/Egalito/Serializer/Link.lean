import Mathlib.Data.List.TakeWhile
import Egalito.Archive.ChunkTypes
import Egalito.Archive.Stream
/-!
# Links and `LinkSerializer`

The link classes of `chunk/link.h`, and `LinkSerializer` of
`instr/serializer.cpp`. Chunks are referred to by id; a tree answers what the
links ask of their chunks. `none` in `Option` stands for an exception, a null
dereference or a failed assertion.

The placeholder position that `deserializeLinkTarget` gives a target which has
none yet is not modelled: the target's own `deserialize` sets its position.
-/

open Egalito.Lib Egalito.Archive

namespace Egalito.Serializer

abbrev ChunkId := Nat

/-- A name that is kept as a `const char *`. -/
abbrev CString := { s : List UInt8 // 0 ∉ s }

/-- What links ask of the chunks they refer to, and of the loader. -/
structure Tree where
  chunkClass : ChunkId → ChunkClass
  getAddress : ChunkId → UInt64
  getSize : ChunkId → UInt64
  /-- `TLSDataRegion::getTLSOffset` -/
  getTLSOffset : ChunkId → UInt64
  /-- `ExternalSymbol::getResolved` -/
  getResolved : ChunkId → Option ChunkId
  /-- `LoaderBridge::getAddress` -/
  loaderAddress : List UInt8 → UInt64

/-! ## Ids -/

/-- `ArchiveIDOperations` of a writer: the map `assignment` and the list's next id. -/
structure IDOperations where
  assignment : List (ChunkId × UInt32)
  nextID : UInt32
deriving DecidableEq

def noneID : UInt32 := 0xffffffff

def assign (object : Option ChunkId) : StateM IDOperations UInt32 := fun op =>
  match object with
  | none => (noneID, op)
  | some chunk =>
    match op.assignment.lookup chunk with
    | some id => (id, op)
    | none => (op.nextID, ⟨(chunk, op.nextID) :: op.assignment, op.nextID + 1⟩)

/-- `lookup` of a reader: the chunk that was written under an id. The outer
`none` is the failed assertion on the list's size. -/
def IDOperations.lookup (op : IDOperations) (id : UInt32) : Option (Option ChunkId) :=
  if id = noneID then some none
  else (op.assignment.find? (fun p => p.2 = id)).map (fun p => some p.1)

/-- A reader's lookup that returns every chunk under the id the writer assigned to it. -/
structure Restores (op : IDOperations) (lookup : UInt32 → Option (Option ChunkId)) : Prop where
  null : lookup noneID = some none
  assigned : ∀ p ∈ op.assignment, lookup p.2 = some (some p.1)

/-! ## Links -/

/-- `Link::LinkScope`, a set of bits. -/
structure LinkScope where
  bits : UInt8
deriving DecidableEq, Repr

namespace LinkScope

def unknown : LinkScope := ⟨0⟩
def withinFunction : LinkScope := ⟨1⟩
def withinModule : LinkScope := ⟨4⟩
def internalJump : LinkScope := ⟨7⟩
def externalJump : LinkScope := ⟨6⟩

def matches_ (scope s : LinkScope) : Bool := scope.bits &&& s.bits == s.bits

def isExternalJump (scope : LinkScope) : Bool := !scope.matches_ withinFunction

end LinkScope

/-- A pointer to a link of one of the classes; `null` is `nullptr`. A target is
optional where the class and the serializer allow a null one. -/
inductive Link where
  | null
  | normal (target : Option ChunkId) (scope : LinkScope)
  | absoluteNormal (target : Option ChunkId) (scope : LinkScope)
  | offset (target : ChunkId) (offset : UInt64) (scope : LinkScope)
  | plt (originalAddress : UInt64) (pltTrampoline : Option ChunkId)
  | externalSymbol (externalSymbol : ChunkId) (offset : UInt64)
  | copyReloc (externalSymbol : ChunkId)
  | jumpTable (jumpTable : Option ChunkId)
  | symbolOnly (symbol : CString) (target : UInt64)
  | egalitoLoader (targetName : List UInt8)
  | ldsoLoader (targetName : List UInt8)
  | stack (targetAddress : UInt64)
  | marker (marker : ChunkId)
  | absoluteMarker (marker : ChunkId)
  | gsTable (entryTarget : Option ChunkId) (entryOffset : UInt64)
  | distance (base target : ChunkId)
  | dataOffset (section_ : ChunkId) (target addend : UInt64) (scope : LinkScope)
  | absoluteData (section_ : ChunkId) (target addend : UInt64) (scope : LinkScope)
  | internalAndExternalData (externalSymbol section_ : ChunkId) (target addend : UInt64) (scope : LinkScope)
  | tlsDataOffset (tls : Option ChunkId) (symbol : Option CString) (target : UInt64)
  | unresolved (target : UInt64)
  | unresolvedRelative (target : UInt64)
  | immAndDisp (immAbsolute : Bool) (immTarget : Option ChunkId) (immScope : LinkScope) (dispLink : Link)
deriving DecidableEq

inductive LinkKind where
  | null | normal | absoluteNormal | offset | plt | externalSymbol | copyReloc | jumpTable | symbolOnly
  | egalitoLoader | ldsoLoader | stack | marker | absoluteMarker | gsTable | distance | dataOffset
  | absoluteData | internalAndExternalData | tlsDataOffset | unresolved | unresolvedRelative | immAndDisp
deriving DecidableEq, Repr

namespace Link

def kind : Link → LinkKind
  | null => .null
  | normal _ _ => .normal
  | absoluteNormal _ _ => .absoluteNormal
  | offset _ _ _ => .offset
  | plt _ _ => .plt
  | externalSymbol _ _ => .externalSymbol
  | copyReloc _ => .copyReloc
  | jumpTable _ => .jumpTable
  | symbolOnly _ _ => .symbolOnly
  | egalitoLoader _ => .egalitoLoader
  | ldsoLoader _ => .ldsoLoader
  | stack _ => .stack
  | marker _ => .marker
  | absoluteMarker _ => .absoluteMarker
  | gsTable _ _ => .gsTable
  | distance _ _ => .distance
  | dataOffset _ _ _ _ => .dataOffset
  | absoluteData _ _ _ _ => .absoluteData
  | internalAndExternalData _ _ _ _ _ => .internalAndExternalData
  | tlsDataOffset _ _ _ => .tlsDataOffset
  | unresolved _ => .unresolved
  | unresolvedRelative _ => .unresolvedRelative
  | immAndDisp _ _ _ _ => .immAndDisp

variable (tree : Tree)

def getTarget : Link → Option (Option ChunkId)
  | null => none
  | normal target _ => some target
  | absoluteNormal target _ => some target
  | offset target _ _ => some (some target)
  | plt _ pltTrampoline => some pltTrampoline
  | externalSymbol symbol _ => some (tree.getResolved symbol)
  | copyReloc symbol => some (tree.getResolved symbol)
  | jumpTable table => some table
  | symbolOnly _ _ => some none
  | egalitoLoader _ => some none
  | ldsoLoader _ => some none
  | stack _ => some none
  | marker _ => some none
  | absoluteMarker _ => some none
  | gsTable target _ => some target
  | distance _ target => some (some target)
  | dataOffset section_ _ _ _ => some (some section_)
  | absoluteData section_ _ _ _ => some (some section_)
  | internalAndExternalData _ section_ _ _ _ => some (some section_)
  | tlsDataOffset tls _ _ => some tls
  | unresolved _ => some none
  | unresolvedRelative _ => some none
  | immAndDisp _ _ _ _ => none

def getTargetAddress : Link → Option UInt64
  | null => none
  | normal target _ => target.map tree.getAddress
  | absoluteNormal target _ => target.map tree.getAddress
  | offset target off _ => some (tree.getAddress target + off)
  | plt _ pltTrampoline => pltTrampoline.map tree.getAddress
  | externalSymbol symbol off =>
    match tree.getResolved symbol with
    | some resolved => some (tree.getAddress resolved + off)
    | none => some 0
  | copyReloc symbol =>
    match tree.getResolved symbol with
    | some resolved => some (tree.getAddress resolved)
    | none => some 0
  | jumpTable table => table.map tree.getAddress
  | symbolOnly _ target => some target
  | egalitoLoader targetName => some (tree.loaderAddress targetName)
  | ldsoLoader _ => some 0
  | stack targetAddress => some targetAddress
  | marker m => some (tree.getAddress m)
  | absoluteMarker m => some (tree.getAddress m)
  | gsTable _ off => some off
  | distance base target => some (tree.getAddress target + tree.getSize target - tree.getAddress base)
  | dataOffset section_ target addend _ => some (tree.getAddress section_ + target + addend)
  | absoluteData section_ target addend _ => some (tree.getAddress section_ + target + addend)
  | internalAndExternalData _ section_ target addend _ => some (tree.getAddress section_ + target + addend)
  | tlsDataOffset tls _ target =>
    match tls with
    | some tls => some (tree.getTLSOffset tls + target)
    | none => some 0
  | unresolved target => some target
  | unresolvedRelative target => some target
  | immAndDisp _ _ _ _ => none

/-- The name of a target that is known by name. -/
def getTargetName : Link → Option (List UInt8)
  | symbolOnly symbol _ => some symbol.1
  | egalitoLoader targetName => some targetName
  | ldsoLoader targetName => some targetName
  | tlsDataOffset _ symbol _ => symbol.map Subtype.val
  | _ => none

def isAbsolute : Link → Bool
  | absoluteNormal _ _ => true
  | absoluteMarker _ => true
  | absoluteData _ _ _ _ => true
  | internalAndExternalData _ _ _ _ _ => true
  | _ => false

def isRIPRelative : Link → Bool
  | normal _ _ => true
  | offset _ _ _ => true
  | plt _ _ => true
  | jumpTable _ => true
  | symbolOnly _ _ => true
  | egalitoLoader _ => true
  | ldsoLoader _ => true
  | marker _ => true
  | dataOffset _ _ _ _ => true
  | unresolvedRelative _ => true
  | _ => false

def getScope : Link → Option LinkScope
  | null => none
  | normal _ scope => some scope
  | absoluteNormal _ scope => some scope
  | offset _ _ scope => some scope
  | plt _ _ => some .withinModule
  | jumpTable _ => some .withinModule
  | symbolOnly _ _ => some .withinModule
  | dataOffset _ _ _ scope => some scope
  | absoluteData _ _ _ scope => some scope
  | internalAndExternalData _ _ _ _ scope => some scope
  | tlsDataOffset _ _ _ => some .withinModule
  | immAndDisp _ _ _ _ => none
  | _ => some .unknown

def isExternalJump (link : Link) : Option Bool := link.getScope.map LinkScope.isExternalJump

/-- The classes the pointer types ask for. -/
def WellTyped : Link → Prop
  | plt _ pltTrampoline => ∀ c ∈ pltTrampoline, tree.chunkClass c = .pltTrampoline
  | jumpTable table => ∀ c ∈ table, tree.chunkClass c = .jumpTable
  | dataOffset section_ _ _ _ => tree.chunkClass section_ = .dataSection
  | absoluteData section_ _ _ _ => tree.chunkClass section_ = .dataSection
  | internalAndExternalData _ section_ _ _ _ => tree.chunkClass section_ = .dataSection
  | tlsDataOffset tls _ _ => ∀ c ∈ tls, tree.chunkClass c = .tlsDataRegion
  | immAndDisp _ _ _ dispLink => dispLink.WellTyped
  | _ => True

end Link

/-! ## `LinkSerializer` -/

inductive EgalitoLinkType where
  | unknown | absoluteNormal | normal | offset | plt | jumpTable | egalitoLoader | symbolOnly | marker
  | absoluteData | dataOffset | tlsDataOffset | unresolved | immAndDisp
deriving DecidableEq, Repr

namespace EgalitoLinkType

def value : EgalitoLinkType → UInt8
  | unknown => 0
  | absoluteNormal => 1
  | normal => 2
  | offset => 3
  | plt => 4
  | jumpTable => 5
  | egalitoLoader => 6
  | symbolOnly => 7
  | marker => 8
  | absoluteData => 9
  | dataOffset => 10
  | tlsDataOffset => 11
  | unresolved => 12
  | immAndDisp => 13

/-- The case of the reader's switch; `default` is the case of `TYPE_UNKNOWN_LINK`. -/
def ofValue : UInt8 → EgalitoLinkType
  | 1 => absoluteNormal
  | 2 => normal
  | 3 => offset
  | 4 => plt
  | 5 => jumpTable
  | 6 => egalitoLoader
  | 7 => symbolOnly
  | 8 => marker
  | 9 => absoluteData
  | 10 => dataOffset
  | 11 => tlsDataOffset
  | 12 => unresolved
  | 13 => immAndDisp
  | _ => unknown

@[simp]
theorem ofValue_value (type : EgalitoLinkType) : ofValue type.value = type := by
  cases type <;> rfl

end EgalitoLinkType

def writeType (type : EgalitoLinkType) : List UInt8 := writeU8 type.value

/-- The type `serialize` writes: the first class of its chain of `dynamic_cast`s
that the link is of. An internal-and-external data link is an absolute data link. -/
def Link.linkType : Link → EgalitoLinkType
  | .absoluteNormal _ _ => .absoluteNormal
  | .normal _ _ => .normal
  | .offset _ _ _ => .offset
  | .plt _ _ => .plt
  | .jumpTable _ => .jumpTable
  | .egalitoLoader _ => .egalitoLoader
  | .symbolOnly _ _ => .symbolOnly
  | .marker _ => .marker
  | .absoluteData _ _ _ _ => .absoluteData
  | .internalAndExternalData _ _ _ _ _ => .absoluteData
  | .dataOffset _ _ _ _ => .dataOffset
  | .tlsDataOffset _ _ _ => .tlsDataOffset
  | .unresolved _ => .unresolved
  | .immAndDisp _ _ _ _ => .immAndDisp
  | _ => .unknown

/-- The fields of a data link: its section and the offset of its target there. -/
def serializeDataTarget (tree : Tree) (section_ : ChunkId) (target addend : UInt64) :
    StateM IDOperations (List UInt8) := do
  let id ← assign (some section_)
  return writeU32 id ++ writeU64 (tree.getAddress section_ + target + addend - tree.getAddress section_)

def serializeSymbol : Option CString → List UInt8
  | none => writeBool false
  | some name => writeBool true ++ writeString name.1

/-- What `serialize` writes after the type. -/
def Link.serializeFields (tree : Tree) : Link → StateM IDOperations (List UInt8)
  | .absoluteNormal target scope => do
    let id ← assign target
    return writeU8 scope.bits ++ writeU32 id
  | .normal target scope => do
    let id ← assign target
    return writeU8 scope.bits ++ writeU32 id
  | .offset target off scope => do
    let id ← assign (some target)
    return writeU8 scope.bits ++ (writeU32 id ++
      writeU64 (tree.getAddress target + off - tree.getAddress target))
  | .plt _ pltTrampoline => do
    let id ← assign pltTrampoline
    return writeU32 id
  | .jumpTable table => do
    let id ← assign table
    return writeU32 id
  | .egalitoLoader targetName => return writeString targetName
  | .absoluteData section_ target addend _ => serializeDataTarget tree section_ target addend
  | .internalAndExternalData _ section_ target addend _ => serializeDataTarget tree section_ target addend
  | .dataOffset section_ target addend scope => do
    let fields ← serializeDataTarget tree section_ target addend
    return writeU8 scope.bits ++ fields
  | .tlsDataOffset tls symbol target => do
    let id ← assign tls
    return writeU32 id ++ (writeU64 target ++ serializeSymbol symbol)
  | .unresolved target => return writeU64 target
  | .immAndDisp _ immTarget immScope dispLink => do
    let id ← assign immTarget
    let fields ← dispLink.serializeFields tree
    return writeU8 immScope.bits ++ (writeU32 id ++ (writeType dispLink.linkType ++ fields))
  | _ => return []

/-- `LinkSerializer::serialize` -/
def Link.serialize (tree : Tree) (link : Link) : StateM IDOperations (List UInt8) := do
  let fields ← link.serializeFields tree
  return writeType link.linkType ++ fields

theorem zero_notMem_takeWhile (s : List UInt8) : 0 ∉ s.takeWhile (· != 0) := fun h => by
  simpa using List.mem_takeWhile_imp h

section Reader

variable (tree : Tree) (lookup : UInt32 → Option (Option ChunkId))

def deserializeLinkTarget : Reader (Option ChunkId) := do
  let id ← readU32
  lookup id

/-- `dynamic_cast` of a target to a class. -/
def castTo (cls : ChunkClass) (target : Option ChunkId) : Option ChunkId :=
  target.filter (fun c => tree.chunkClass c = cls)

/-- `dynamic_cast<DataSection *>` of a target, and the offset there. Every use of
the link dereferences the section, so a failed cast is `none`. -/
def deserializeDataTarget : Reader (ChunkId × UInt64) := do
  let target ← deserializeLinkTarget lookup
  let section_ ← castTo tree .dataSection target
  let offset ← readU64
  return (section_, offset)

def deserializeSymbol : Reader (Option CString) := do
  let hasSymbol ← readBool
  if hasSymbol then do
    let name ← readString
    -- the `Symbol` is made from `c_str()`
    return some ⟨name.takeWhile (· != 0), zero_notMem_takeWhile name⟩
  else return none

/-- The cases of `deserialize`, by the type read; `nested` reads the second link of
an `ImmAndDispLink`. -/
def deserializeFields (nested : Reader Link) : EgalitoLinkType → Reader Link
  | .absoluteNormal => do
    let scope ← readU8
    let target ← deserializeLinkTarget lookup
    return .absoluteNormal target ⟨scope⟩
  | .normal => do
    let scope ← readU8
    let target ← deserializeLinkTarget lookup
    return .normal target ⟨scope⟩
  | .offset => do
    let scope ← readU8
    let target ← deserializeLinkTarget lookup
    let target ← target  -- as with a section, a null target is dereferenced by every use
    let offset ← readU64
    return .offset target offset ⟨scope⟩
  | .plt => do
    let target ← deserializeLinkTarget lookup
    return .plt 0 (castTo tree .pltTrampoline target)
  | .jumpTable => do
    let target ← deserializeLinkTarget lookup
    return .jumpTable (castTo tree .jumpTable target)
  | .egalitoLoader => do
    let name ← readString
    return .egalitoLoader name
  | .symbolOnly => return .unresolved 0
  | .marker => return .unresolved 0
  | .absoluteData => do
    let (section_, offset) ← deserializeDataTarget tree lookup
    return .absoluteData section_ offset 0 .unknown
  | .dataOffset => do
    let scope ← readU8
    let (section_, offset) ← deserializeDataTarget tree lookup
    return .dataOffset section_ offset 0 ⟨scope⟩
  | .tlsDataOffset => do
    let target ← deserializeLinkTarget lookup
    let rawTarget ← readU64
    let symbol ← deserializeSymbol
    return .tlsDataOffset (castTo tree .tlsDataRegion target) symbol rawTarget
  | .unresolved => do
    let target ← readU64
    return .unresolved target
  | .immAndDisp => do
    let immScope ← readU8
    let immTarget ← deserializeLinkTarget lookup
    let dispLink ← nested
    return .immAndDisp false immTarget ⟨immScope⟩ dispLink
  | .unknown => return .unresolved 0

/-- `LinkSerializer::deserialize`, to a depth of `fuel` nested links. -/
def deserializeDepth : Nat → Reader Link
  | 0 => fun _ => none
  | fuel + 1 => do
    let type ← readU8
    if !(← Reader.stillGood) then return .null
    deserializeFields tree lookup (deserializeDepth fuel) (EgalitoLinkType.ofValue type)

/-- `LinkSerializer::deserialize`: each level of nesting takes bytes off the stream,
so its length bounds the depth. -/
def deserializeLink : Reader Link := fun s => deserializeDepth tree lookup (s.rest.length + 1) s

end Reader

/-! ## What a round trip should give -/

/-- A link of the same kind with the same target: chunk, address and, for a target
known by name, name. A pair of links is compared link by link. -/
inductive SameTarget (tree : Tree) : Link → Link → Prop where
  | single {link back : Link} (kind : link.kind = back.kind) (single : link.kind ≠ .immAndDisp)
      (target : link.getTarget tree = back.getTarget tree)
      (address : link.getTargetAddress tree = back.getTargetAddress tree)
      (name : link.getTargetName = back.getTargetName) : SameTarget tree link back
  | pair {absolute : Bool} {target : Option ChunkId} {scope scope' : LinkScope} {disp disp' : Link}
      (same : SameTarget tree disp disp') :
      SameTarget tree (.immAndDisp absolute target scope disp) (.immAndDisp absolute target scope' disp')

/-- The same scope and flags. -/
inductive SameAttributes : Link → Link → Prop where
  | single {link back : Link} (single : link.kind ≠ .immAndDisp) (scope : link.getScope = back.getScope)
      (absolute : link.isAbsolute = back.isAbsolute) (ripRelative : link.isRIPRelative = back.isRIPRelative)
      (externalJump : link.isExternalJump = back.isExternalJump) : SameAttributes link back
  | pair {absolute absolute' : Bool} {target target' : Option ChunkId} {scope : LinkScope} {disp disp' : Link}
      (same : SameAttributes disp disp') :
      SameAttributes (.immAndDisp absolute target scope disp) (.immAndDisp absolute' target' scope disp')

/-- `deserialize` on what `serialize` wrote returns the same link. -/
def Link.RoundTrips (tree : Tree) (lookup : UInt32 → Option (Option ChunkId)) (op : IDOperations)
    (link : Link) : Prop :=
  ∃ back rest, deserializeLink tree lookup ⟨(link.serialize tree op).1, true⟩ = some (back, rest) ∧
    SameTarget tree link back ∧ SameAttributes link back

end Egalito.Serializer
