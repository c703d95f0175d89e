import Egalito.Serializer.ChunkTree
import Egalito.Serializer.LinkTheorems
/-!
# Data sections and data regions

`serialize` and `deserialize` of `DataSection`, `DataRegion` and
`TLSDataRegion` in `chunk/dataregion.cpp`. The children are written by their
ids; they have flat chunks of their own.
-/

open Egalito.Lib Egalito.Archive

namespace Egalito.Serializer

/-! ## Child lists -/

def assignChildren : List ChunkId → StateM IDOperations (List UInt32)
  | [] => return []
  | child :: children => do
    let id ← assign (some child)
    return id :: (← assignChildren children)

/-- What `serializeChildren` writes to the chunk. -/
def serializeChildren (children : List ChunkId) : StateM IDOperations (List UInt8) := do
  let idList ← assignChildren children
  return writeU32 (UInt32.ofNat children.length) ++ idList.flatMap writeU32

section Children

variable (tree : Tree) (lookup : UInt32 → Option (Option ChunkId)) (cls : ChunkClass)

/-- `genericAdd` takes the chunks of a class; a null pointer has no parent to set. -/
def readChildren : Nat → Reader (List ChunkId)
  | 0 => return []
  | count + 1 => do
    let child ← (← deserializeLinkTarget lookup)
    let children ← readChildren count
    return if ChunkTree.accepts cls (tree.chunkClass child) then child :: children else children

def deserializeChildren : Reader (List ChunkId) := do
  let count ← readU32
  readChildren tree lookup cls count.toNat

variable {tree lookup cls}

theorem assignChildren_subset (children : List ChunkId) (op : IDOperations) :
    op.assignment ⊆ (assignChildren children op).2.assignment := by
  induction children generalizing op with
  | nil => exact List.Subset.refl _
  | cons child children ih => exact List.Subset.trans (assign_subset (some child) op) (ih _)

theorem reads_readChildren {children : List ChunkId} {op : IDOperations}
    (hcls : ∀ child ∈ children, ChunkTree.accepts cls (tree.chunkClass child) = true)
    (hop : Restores (assignChildren children op).2 lookup) :
    Reads (readChildren tree lookup cls children.length) ((assignChildren children op).1.flatMap writeU32) children := by
  induction children generalizing op with
  | nil => exact reads_pure []
  | cons child children ih =>
    have hread : Reads (deserializeLinkTarget lookup) (writeU32 (assign (some child) op).1) (some child) :=
      reads_deserializeLinkTarget (hop.mono (assignChildren_subset children (assign (some child) op).2))
    refine hread.bind ((reads_lift rfl).skip ((ih (fun c hc => hcls c (List.mem_cons_of_mem _ hc)) hop).bind_pure ?_))
    rw [if_pos (hcls child List.mem_cons_self)]

theorem reads_deserializeChildren {children : List ChunkId} {op : IDOperations}
    (hcls : ∀ child ∈ children, ChunkTree.accepts cls (tree.chunkClass child) = true)
    (hop : Restores (serializeChildren children op).2 lookup) (hcount : children.length < 2 ^ 32) :
    Reads (deserializeChildren tree lookup cls) (serializeChildren children op).1 children := by
  refine (reads_readU32 _).bind ?_
  rw [UInt32.toNat_ofNat_of_lt' hcount]
  exact reads_readChildren hcls hop

/-- A child list that was read is not longer than a count. -/
theorem takes_deserializeChildren :
    Takes (deserializeChildren tree lookup cls) (fun children _ => children.length < 2 ^ 32) := by
  have hread : ∀ count, Takes (readChildren tree lookup cls count) (fun children _ => children.length ≤ count) := by
    intro count
    induction count with
    | zero => exact (takes_pure _).weaken fun _ _ h => by simp [h.1]
    | succ count ih =>
      have htarget : Takes (deserializeLinkTarget lookup) (fun _ _ => True) :=
        takes_readU32.bind fun id => (takes_lift (lookup id)).weaken fun _ _ _ _ _ => trivial
      refine htarget.bind fun target => (takes_lift target).bind fun child => ih.bind_pure ?_
      intro children _ hle _ _ _ _
      split
      · exact Nat.succ_le_succ hle
      · exact Nat.le_succ_of_le hle
  exact takes_readU32.bind fun count => (hread count.toNat).weaken fun _ _ h _ _ => h.trans_lt count.toNat_lt

end Children

/-! ## Sections -/

/-- `DataSection::Type`. -/
inductive SectionType
  | unknown
  | bss
  | data
  | code
  | initArray
  | finiArray
  | dynamic
deriving DecidableEq

/-- The enumerators in the order of their values. -/
def SectionType.all : List SectionType := [.unknown, .bss, .data, .code, .initArray, .finiArray, .dynamic]

def SectionType.toU8 (type : SectionType) : UInt8 := UInt8.ofNat (all.idxOf type)

/-- The cast of a byte; `none` is a value without an enumerator. -/
def SectionType.ofU8 (value : UInt8) : Option SectionType := all[value.toNat]?

/-- The position is an `AbsoluteOffsetPosition`: an offset from the region. -/
structure DataSection where
  offset : UInt64
  size : UInt64
  name : List UInt8
  alignment : UInt64
  originalOffset : UInt64
  permissions : UInt64
  type : SectionType
  children : List ChunkId
deriving DecidableEq

namespace DataSection

variable (tree : Tree) (lookup : UInt32 → Option (Option ChunkId))

/-- The permissions and the position are not written. -/
def serialize (sec : DataSection) : StateM IDOperations (List UInt8) := do
  let children ← serializeChildren sec.children
  return writeU64 sec.size ++ (writeString sec.name ++ (writeU64 sec.alignment ++ (writeU64 sec.originalOffset ++
    (writeU8 sec.type.toU8 ++ children))))

/-- Into a new section, whose permissions are 0; and the return value. -/
def deserialize : Reader (DataSection × Bool) := do
  let size ← readU64
  let name ← readString
  let alignment ← readU64
  let originalOffset ← readU64
  let type ← SectionType.ofU8 (← readU8)
  let children ← deserializeChildren tree lookup .dataSection
  let good ← Reader.stillGood
  return (⟨originalOffset, size, name, alignment, originalOffset, 0, type, children⟩, good)

/-- `deserialize` takes exactly what `serialize` wrote, and restores the section. -/
def RoundTrips (op : IDOperations) (sec : DataSection) : Prop :=
  Reads (deserialize tree lookup) (sec.serialize op).1 (sec, true)

/-- What the writer leaves out has the value that the reader puts in. -/
structure Restorable (sec : DataSection) : Prop where
  permissions : sec.permissions = 0
  offset : sec.offset = sec.originalOffset
  name : 0 ∉ sec.name
  count : sec.children.length < 2 ^ 32

variable {tree lookup} {op : IDOperations} {sec : DataSection}

theorem takes_deserialize : Takes (deserialize tree lookup) (fun result _ => Restorable result.1) := by
  refine takes_readU64.bind fun size => takes_readString.bind fun name => takes_readU64.bind fun alignment =>
    takes_readU64.bind fun originalOffset => takes_readU8.bind fun code => (takes_lift _).bind fun type =>
    takes_deserializeChildren.bind fun children => takes_stillGood.bind_pure ?_
  intro _ _ _ _ hcount _ _ _ _ _ _ _ _ _ hname _ _
  exact ⟨rfl, rfl, hname.1, hcount⟩

theorem roundTrips_iff (hcls : ∀ child ∈ sec.children, tree.chunkClass child = .dataVariable)
    (hop : Restores (sec.serialize op).2 lookup) : sec.RoundTrips tree lookup op ↔ sec.Restorable := by
  constructor
  · intro h
    obtain ⟨-, -, hback, -⟩ := takes_deserialize _ _ _ (h []) rfl
    exact hback
  · rintro ⟨hpermissions, hoffset, hname, hcount⟩
    have hchildren : Reads (deserializeChildren tree lookup .dataSection) (serializeChildren sec.children op).1
        sec.children := reads_deserializeChildren (fun child hc => by rw [hcls child hc]; rfl) hop hcount
    have htype : SectionType.ofU8 sec.type.toU8 = some sec.type := by cases sec.type <;> rfl
    have hback : { sec with offset := sec.originalOffset, permissions := 0 } = sec := by
      cases sec
      simp_all
    have hread : Reads (deserialize tree lookup) (sec.serialize op).1
        ({ sec with offset := sec.originalOffset, permissions := 0 }, true) :=
      (reads_readU64 _).bind ((reads_readString hname).bind ((reads_readU64 _).bind ((reads_readU64 _).bind
        ((reads_readU8 _).bind ((reads_lift htype).skip (hchildren.bind_nil (reads_stillGood.skip (reads_pure _))))))))
    rwa [hback] at hread

end DataSection

/-! ## Regions -/

/-- The address is that of an `AbsolutePosition`. -/
structure DataRegion where
  address : UInt64
  size : UInt64
  originalAddress : UInt64
  permissions : UInt32
  alignment : UInt64
  dataBytes : List UInt8
  children : List ChunkId
deriving DecidableEq

namespace DataRegion

variable (tree : Tree) (lookup : UInt32 → Option (Option ChunkId))

def serialize (region : DataRegion) : StateM IDOperations (List UInt8) := do
  let children ← serializeChildren region.children
  return writeU64 region.address ++ (writeU64 region.size ++ (writeU64 region.originalAddress ++
    (writeU32 region.permissions ++ (writeU64 region.alignment ++ (writeBytes64 region.dataBytes ++ children)))))

def deserialize : Reader (DataRegion × Bool) := do
  let address ← readU64
  let size ← readU64
  let originalAddress ← readU64
  let permissions ← readU32
  let alignment ← readU64
  let dataBytes ← readBytes64
  let children ← deserializeChildren tree lookup .dataRegion
  let good ← Reader.stillGood
  return (⟨address, size, originalAddress, permissions, alignment, dataBytes, children⟩, good)

/-- `deserialize` takes exactly what `serialize` wrote, and restores the region. -/
def RoundTrips (op : IDOperations) (region : DataRegion) : Prop :=
  Reads (deserialize tree lookup) (region.serialize op).1 (region, true)

/-- The lengths fit into their fields. -/
structure Restorable (region : DataRegion) : Prop where
  bytes : region.dataBytes.length < 2 ^ 64
  count : region.children.length < 2 ^ 32

variable {tree lookup} {op : IDOperations} {region : DataRegion}

theorem takes_deserialize : Takes (deserialize tree lookup) (fun result _ => Restorable result.1) := by
  refine takes_readU64.bind fun address => takes_readU64.bind fun size => takes_readU64.bind fun originalAddress =>
    takes_readU32.bind fun permissions => takes_readU64.bind fun alignment => takes_readBytes64.bind fun dataBytes =>
    takes_deserializeChildren.bind fun children => takes_stillGood.bind_pure ?_
  intro _ _ _ _ hcount _ hbytes _ _ _ _ _ _ _ _ _ _
  exact ⟨hbytes, hcount⟩

theorem reads_deserialize (hcls : ∀ child ∈ region.children, tree.chunkClass child = .dataSection)
    (hop : Restores (region.serialize op).2 lookup) (h : region.Restorable) : region.RoundTrips tree lookup op := by
  have hchildren : Reads (deserializeChildren tree lookup .dataRegion) (serializeChildren region.children op).1
      region.children := reads_deserializeChildren (fun child hc => by rw [hcls child hc]; rfl) hop h.count
  exact (reads_readU64 _).bind ((reads_readU64 _).bind ((reads_readU64 _).bind ((reads_readU32 _).bind
    ((reads_readU64 _).bind ((reads_readBytes64 h.bytes).bind (hchildren.bind_nil
      (reads_stillGood.skip (reads_pure _))))))))

end DataRegion

/-! ## TLS regions -/

structure TLSDataRegion extends DataRegion where
  tlsOffset : UInt64
deriving DecidableEq

namespace TLSDataRegion

variable (tree : Tree) (lookup : UInt32 → Option (Option ChunkId))

def serialize (region : TLSDataRegion) : StateM IDOperations (List UInt8) := do
  return (← region.toDataRegion.serialize) ++ writeU64 region.tlsOffset

def deserialize : Reader (TLSDataRegion × Bool) := do
  let (region, _) ← DataRegion.deserialize tree lookup
  let tlsOffset ← readU64
  let good ← Reader.stillGood
  return (⟨region, tlsOffset⟩, good)

def RoundTrips (op : IDOperations) (region : TLSDataRegion) : Prop :=
  Reads (deserialize tree lookup) (region.serialize op).1 (region, true)

variable {tree lookup} {op : IDOperations} {region : TLSDataRegion}

theorem takes_deserialize :
    Takes (deserialize tree lookup) (fun result _ => DataRegion.Restorable result.1.toDataRegion) := by
  refine DataRegion.takes_deserialize.bind fun result => takes_readU64.bind fun tlsOffset =>
    takes_stillGood.bind_pure ?_
  intro _ _ _ _ _ _ hregion
  exact hregion

end TLSDataRegion

/-! ## All of them -/

/-- A section comes back if and only if its permissions are 0, it is at its original offset, its name is a C string
and its children can be counted; a region, with or without TLS, if and only if its bytes and children can be counted. -/
theorem data_round_trip_iff (tree : Tree) (lookup : UInt32 → Option (Option ChunkId)) (op : IDOperations) :
    (∀ sec : DataSection, (∀ child ∈ sec.children, tree.chunkClass child = .dataVariable) →
      Restores (sec.serialize op).2 lookup → (sec.RoundTrips tree lookup op ↔
        sec.permissions = 0 ∧ sec.offset = sec.originalOffset ∧ 0 ∉ sec.name ∧ sec.children.length < 2 ^ 32)) ∧
    (∀ region : DataRegion, (∀ child ∈ region.children, tree.chunkClass child = .dataSection) →
      Restores (region.serialize op).2 lookup → (region.RoundTrips tree lookup op ↔
        region.dataBytes.length < 2 ^ 64 ∧ region.children.length < 2 ^ 32)) ∧
    ∀ region : TLSDataRegion, (∀ child ∈ region.children, tree.chunkClass child = .dataSection) →
      Restores (region.serialize op).2 lookup → (region.RoundTrips tree lookup op ↔
        region.dataBytes.length < 2 ^ 64 ∧ region.children.length < 2 ^ 32) := by
  refine ⟨fun sec hcls hop => ?_, fun region hcls hop => ⟨fun h => ?_, fun h => ?_⟩,
    fun region hcls hop => ⟨fun h => ?_, fun h => ?_⟩⟩
  · rw [DataSection.roundTrips_iff hcls hop]
    exact ⟨fun h => ⟨h.permissions, h.offset, h.name, h.count⟩, fun h => ⟨h.1, h.2.1, h.2.2.1, h.2.2.2⟩⟩
  · obtain ⟨-, -, hback, -⟩ := DataRegion.takes_deserialize _ _ _ (h []) rfl
    exact ⟨hback.bytes, hback.count⟩
  · exact DataRegion.reads_deserialize hcls hop ⟨h.1, h.2⟩
  · obtain ⟨-, -, hback, -⟩ := TLSDataRegion.takes_deserialize _ _ _ (h []) rfl
    exact ⟨hback.bytes, hback.count⟩
  · have hregion : region.toDataRegion.RoundTrips tree lookup op := DataRegion.reads_deserialize hcls hop ⟨h.1, h.2⟩
    exact hregion.bind ((reads_readU64 _).bind_nil (reads_stillGood.skip (reads_pure _)))

/-- A writable section without variables. -/
def writableSection : DataSection := ⟨0x10, 8, [0x2e, 0x64], 8, 0x10, 1, .data, []⟩

/-- A TLS region with section 1. -/
def sampleTLS : TLSDataRegion := ⟨⟨0x1000, 16, 0x1000, 6, 8, [1, 2], [1]⟩, 0x40⟩

/-- The region comes back, and so does the section once it has no permissions. -/
theorem data_round_trip_sample :
    sampleTLS.RoundTrips sampleTree (sampleTLS.serialize sampleOps).2.lookup sampleOps ∧
    sampleTLS.toDataRegion.RoundTrips sampleTree (sampleTLS.serialize sampleOps).2.lookup sampleOps ∧
    { writableSection with permissions := 0 }.RoundTrips sampleTree sampleOps.lookup sampleOps := by
  have hcls : ∀ child ∈ sampleTLS.children, sampleTree.chunkClass child = .dataSection := by decide
  have hop : Restores (sampleTLS.serialize sampleOps).2 (sampleTLS.serialize sampleOps).2.lookup :=
    (sampleOps_wf.assign (by decide) (some 1)).restores (by decide)
  have hregions := (data_round_trip_iff sampleTree (sampleTLS.serialize sampleOps).2.lookup sampleOps).2
  have hsection := (data_round_trip_iff sampleTree sampleOps.lookup sampleOps).1
  refine ⟨(hregions.2 sampleTLS hcls hop).2 (by decide), (hregions.1 sampleTLS.toDataRegion hcls hop).2 (by decide), ?_⟩
  exact (hsection { writableSection with permissions := 0 } (by decide) (sampleOps_wf.restores (by decide))).2
    (by decide)

/-- The permissions of a writable section are lost. -/
theorem writableSection_not_restored : ¬ writableSection.RoundTrips sampleTree sampleOps.lookup sampleOps := by
  intro h
  obtain ⟨-, -, hback, -⟩ := DataSection.takes_deserialize _ _ _ (h []) rfl
  exact absurd hback.permissions (by decide)

end Egalito.Serializer
