import Egalito.Archive.ChunkTypes
import Egalito.Archive.Stream
/-!
# Archives

`FlatChunk` and `FlatChunkList`, `EgalitoArchiveWriter` and
`EgalitoArchiveReader`. A file is its bytes. `none` in `Option` stands for what
C++ leaves undefined or asserts away: an index past the end of a table or of
the list.
-/

open Egalito.Lib

namespace Egalito.Archive

structure FlatChunk where
  type : EgalitoChunkType
  id : UInt32
  offset : UInt32
  data : List UInt8
deriving DecidableEq, Repr

/-- `getSize` returns a `uint32_t`. -/
def FlatChunk.getSize (flat : FlatChunk) : UInt32 := UInt32.ofNat flat.data.length

/-- `flatList`: a vector of pointers, indexed by id. -/
abbrev FlatChunkList := List (Option FlatChunk)

/-- The index `getID() + 1` is computed in 32 bits. -/
def FlatChunkList.addFlatChunk (flatList : FlatChunkList) (flat : FlatChunk) : Option FlatChunkList :=
  let needed := (flat.id + 1).toNat
  let flatList := if flatList.length < needed then
    flatList ++ List.replicate (needed - flatList.length) none else flatList
  if flat.id.toNat < flatList.length then some (flatList.set flat.id.toNat (some flat)) else none

/-- `egalito\xc4` -/
def signature : List UInt8 := [0x65, 0x67, 0x61, 0x6c, 0x69, 0x74, 0x6f, 0xc4]

def version : UInt32 := 24

/-! ## Writer -/

/-- The loop of `assignOffsets`, at `totalSize`. -/
def assignOffsetsFrom (totalSize : UInt32) : List FlatChunk → List FlatChunk
  | [] => []
  | flat :: flats =>
    { flat with offset := totalSize } :: assignOffsetsFrom (totalSize + (2 + 4 * 3 + flat.getSize)) flats

def assignOffsets (flats : List FlatChunk) : List FlatChunk :=
  assignOffsetsFrom (UInt32.ofNat signature.length + 4 + 4) flats

/-- One flat chunk; `writeFixedLengthBytes` puts out the first `getSize` bytes of the data. -/
def writeFlatChunk (flat : FlatChunk) : Option (List UInt8) := do
  let type ← encodeChunkType flat.type
  return writeU8 type ++ (writeU32 flat.id ++ (writeU32 flat.offset ++
    (writeU32 flat.getSize ++ flat.data.take flat.getSize.toNat)))

def writeFlatChunks : List FlatChunk → Option (List UInt8)
  | [] => some []
  | flat :: flats => do return (← writeFlatChunk flat) ++ (← writeFlatChunks flats)

def writeData (flats : List FlatChunk) : Option (List UInt8) := do
  let chunks ← writeFlatChunks flats
  return signature ++ (writeU32 version ++ (writeU32 (UInt32.ofNat flats.length) ++ chunks))

def write (flats : List FlatChunk) : Option (List UInt8) := writeData (assignOffsets flats)

/-! ## Reader -/

/-- The flat count, or `none` for an error. A count that cannot be read is only warned about. -/
def readHeader : Reader (Option UInt32) := do
  let line ← readFixedLengthBytes signature.length
  if !(← Reader.stillGood) || line != signature then return none
  let fileVersion ← readU32
  if !(← Reader.stillGood) then return none
  if fileVersion > version then return none
  let flatCount ← readU32
  return some flatCount

def readFlatChunk : Reader FlatChunk := do
  let type ← readU8
  let id ← readU32
  let offset ← readU32
  let size ← readU32
  let data ← readFixedLengthBytes size.toNat
  return ⟨decodeChunkType type, id, offset, data⟩

/-- The loop of `read`, with `count` flat chunks to go; `none` for `nullptr`. -/
def readFlatChunks : Nat → FlatChunkList → Reader (Option FlatChunkList)
  | 0, flatList => return some flatList
  | count + 1, flatList => do
    let flat ← readFlatChunk
    if !(← Reader.stillGood) then return none
    let flatList ← flatList.addFlatChunk flat
    readFlatChunks count flatList

def readArchive : Reader (Option FlatChunkList) := do
  match ← readHeader with
  | none => return none
  | some flatCount => readFlatChunks flatCount.toNat []

/-- `EgalitoArchiveReader::read` on a file with these bytes. -/
def read (file : List UInt8) : Option (Option FlatChunkList) :=
  (readArchive ⟨file, true⟩).map Prod.fst

/-! ## What a round trip should give -/

/-- Ids count up from 0, as the list index requires. -/
def ConsecutiveIds (flats : List FlatChunk) : Prop :=
  ∀ i (h : i < flats.length), (flats.get ⟨i, h⟩).id.toNat = i

/-- The same type, id and data; and instantiating the flat chunk that was read
makes a chunk of the class that was written. -/
def Restored (flat back : FlatChunk) : Prop :=
  back.type = flat.type ∧ back.id = flat.id ∧ back.data = flat.data ∧
    ∃ cls, instantiate back.type = some (some cls) ∧ cls.getFlatType = flat.type

/-- The archive is written and read without an error, and every flat chunk is restored. -/
def RoundTrips (flats : List FlatChunk) : Prop :=
  ∃ file backs, write flats = some file ∧ read file = some (some (backs.map some)) ∧
    List.Forall₂ Restored flats backs

end Egalito.Archive
