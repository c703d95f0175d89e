import Mathlib.Tactic
/-!
# Chunk types

The enumeration and the code tables of `archive/chunktypes.cpp`, and the chunk
classes with the flat type each reports and the table of constructors of
`ChunkSerializer::instantiate`. The tables are indexed by the enumeration's
values and are written here entry by entry, in the order of the source.
-/

namespace Egalito.Archive

inductive EgalitoChunkType where
  | unknown
  | program
  | module
  | functionList
  | pltList
  | jumpTableList
  | dataRegionList
  | initFunctionList
  | externalSymbolList
  | libraryList
  | vtableList
  | function
  | block
  | instruction
  | pltTrampoline
  | jumpTable
  | jumpTableEntry
  | dataRegion
  | tlsDataRegion
  | dataSection
  | dataVariable
  | globalVariable
  | markerList
  | marker
  | vtable
  | vtableEntry
  | initFunction
  | externalSymbol
  | library
  | total
deriving DecidableEq, Repr

namespace EgalitoChunkType

/-- The enumerator's value. -/
def value : EgalitoChunkType → Nat
  | unknown => 0
  | program => 1
  | module => 2
  | functionList => 3
  | pltList => 4
  | jumpTableList => 5
  | dataRegionList => 6
  | initFunctionList => 7
  | externalSymbolList => 8
  | libraryList => 9
  | vtableList => 10
  | function => 11
  | block => 12
  | instruction => 13
  | pltTrampoline => 14
  | jumpTable => 15
  | jumpTableEntry => 16
  | dataRegion => 17
  | tlsDataRegion => 18
  | dataSection => 19
  | dataVariable => 20
  | globalVariable => 21
  | markerList => 22
  | marker => 23
  | vtable => 24
  | vtableEntry => 25
  | initFunction => 26
  | externalSymbol => 27
  | library => 28
  | total => 29

end EgalitoChunkType

open EgalitoChunkType

/-! ## The codes on disk -/

/-- The bytes `?PMFZTRSLQfbizJjD:dvAaVpsl`. -/
def encode : List UInt8 :=
  [0x3f, 0x50, 0x4d, 0x46, 0x5a, 0x54, 0x52, 0x53, 0x4c, 0x51, 0x66, 0x62, 0x69, 0x7a, 0x4a, 0x6a, 0x44,
    0x3a, 0x64, 0x76, 0x41, 0x61, 0x56, 0x70, 0x73, 0x6c]

/-- `encode[type]`; `none` when the index is past the end of the table. -/
def encodeChunkType (type : EgalitoChunkType) : Option UInt8 := encode[type.value]?

def decodeChunkType (encoded : UInt8) : EgalitoChunkType :=
  match encoded with
  | 0x3f => unknown
  | 0x50 => program
  | 0x4d => module
  | 0x46 => functionList
  | 0x5a => pltList
  | 0x54 => jumpTableList
  | 0x52 => dataRegionList
  | 0x53 => externalSymbolList
  | 0x4c => libraryList
  | 0x51 => vtableList
  | 0x66 => function
  | 0x62 => block
  | 0x69 => instruction
  | 0x7a => pltTrampoline
  | 0x4a => jumpTable
  | 0x6a => jumpTableEntry
  | 0x44 => dataRegion
  | 0x3a => tlsDataRegion
  | 0x64 => dataSection
  | 0x76 => dataVariable
  | 0x41 => markerList
  | 0x61 => marker
  | 0x56 => vtable
  | 0x70 => vtableEntry
  | 0x73 => externalSymbol
  | 0x6c => library
  | _ => unknown

/-! ## Classes -/

/-- The chunk classes. -/
inductive ChunkClass where
  | program
  | module
  | functionList
  | pltList
  | jumpTableList
  | dataRegionList
  | initFunctionList
  | externalSymbolList
  | libraryList
  | vtableList
  | function
  | block
  | instruction
  | pltTrampoline
  | jumpTable
  | jumpTableEntry
  | dataRegion
  | tlsDataRegion
  | dataSection
  | dataVariable
  | globalVariable
  | markerList
  | marker
  | vtable
  | vtableEntry
  | initFunction
  | externalSymbol
  | library
deriving DecidableEq, Repr

/-- `getFlatType`; the two marker classes keep the default of `ChunkImpl`, which is 0. -/
def ChunkClass.getFlatType : ChunkClass → EgalitoChunkType
  | program => .program
  | module => .module
  | functionList => .functionList
  | pltList => .pltList
  | jumpTableList => .jumpTableList
  | dataRegionList => .dataRegionList
  | initFunctionList => .initFunctionList
  | externalSymbolList => .externalSymbolList
  | libraryList => .libraryList
  | vtableList => .vtableList
  | function => .function
  | block => .block
  | instruction => .instruction
  | pltTrampoline => .pltTrampoline
  | jumpTable => .jumpTable
  | jumpTableEntry => .jumpTableEntry
  | dataRegion => .dataRegion
  | tlsDataRegion => .tlsDataRegion
  | dataSection => .dataSection
  | dataVariable => .dataVariable
  | globalVariable => .globalVariable
  | markerList => .unknown
  | marker => .unknown
  | vtable => .vtable
  | vtableEntry => .vtableEntry
  | initFunction => .initFunction
  | externalSymbol => .externalSymbol
  | library => .library

/-- The table in `instantiate`; `none` is the entry that returns `nullptr`. -/
def constructor : List (Option ChunkClass) :=
  [none,
    some .program,
    some .module,
    some .functionList,
    some .pltList,
    some .jumpTableList,
    some .dataRegionList,
    some .externalSymbolList,
    some .libraryList,
    some .vtableList,
    some .function,
    some .block,
    some .instruction,
    some .pltTrampoline,
    some .jumpTable,
    some .jumpTableEntry,
    some .dataRegion,
    some .tlsDataRegion,
    some .dataSection,
    some .dataVariable,
    none,
    none,
    some .vtable,
    some .vtableEntry,
    some .externalSymbol,
    some .library]

/-- `ChunkSerializer::instantiate`, by the type of the flat chunk. The outer
`none` is the failed assertion on the table's size, the inner one `nullptr`. -/
def instantiate (type : EgalitoChunkType) : Option (Option ChunkClass) := constructor[type.value]?

/-! ## What survives the tables -/

/-- The types before the first one that the tables leave out, except `TYPE_UNKNOWN`. -/
def InTable (type : EgalitoChunkType) : Prop := 0 < type.value ∧ type.value < initFunctionList.value

instance : DecidablePred InTable := fun _ => inferInstanceAs (Decidable (_ ∧ _))

/-- The type comes back from its code, and its constructor makes the class that reports it. -/
def Survives (type : EgalitoChunkType) : Prop :=
  (encodeChunkType type).map decodeChunkType = some type ∧
    ((instantiate type).join.map ChunkClass.getFlatType) = some type

instance : DecidablePred Survives := fun _ => inferInstanceAs (Decidable (_ ∧ _))

/-- The entry of `TYPE_InitFunctionList` is missing from both tables, so every
type from there on takes the code and the constructor of a later one. -/
theorem survives_iff (type : EgalitoChunkType) : Survives type ↔ InTable type := by
  cases type <;> decide

end Egalito.Archive
