import Egalito.Dwarf.Instructions
import Mathlib.Logic.Function.Basic
/-!
# The parser of `.eh_frame`

`DwarfParser::parse`, `parseCIE` and `parseFDE`, and the `DwarfUnwindInfo` they
fill. `parse` also returns the place of every round of its loop.
-/

open Egalito.Lib

namespace Egalito.Dwarf

/-! ## Entries -/

structure DwarfCIE extends DecoderCIE where
  startAddress : Address
  length : BitVec 64
  index : Nat
  retAddressReg : BitVec 64
  state : DwarfState

structure DwarfFDE where
  startAddress : Address
  length : BitVec 64
  cieIndex : Nat
  ciePointer : BitVec 64
  pcBegin : BitVec 64
  pcRange : BitVec 64
  /-- The pointer to the LSDA, in an augmentation of its own. -/
  augmentation : Option (BitVec 64)
deriving DecidableEq

structure DwarfUnwindInfo where
  cieList : List DwarfCIE
  fdeList : List DwarfFDE
  cieMap : Address → Option Nat

namespace DwarfUnwindInfo

def empty : DwarfUnwindInfo := ⟨[], [], fun _ => none⟩

/-- The entry is used before it is known to be one: `none` is a null pointer. -/
def addCIE (info : DwarfUnwindInfo) (cie : Option DwarfCIE) : Option DwarfUnwindInfo := do
  let cie ← cie
  return { info with
    cieList := info.cieList ++ [cie], cieMap := Function.update info.cieMap cie.startAddress (some cie.index) }

def addFDE (info : DwarfUnwindInfo) (fde : DwarfFDE) : DwarfUnwindInfo :=
  { info with fdeList := info.fdeList ++ [fde] }

def findCIE (info : DwarfUnwindInfo) (address : Address) : Option Nat := info.cieMap address

/-- The index is asserted to be below the number of entries. -/
def getCIE (info : DwarfUnwindInfo) (cieIndex : Nat) : Option DwarfCIE := info.cieList[cieIndex]?

end DwarfUnwindInfo

/-! ## Parsing one entry -/

section Entry

variable (f : EhFrame) (fuel : Nat)

/-- One letter of the augmentation string: `P`, `R`, `L`, `S`, or an unknown one. -/
def augmentationLetter (augmentation : CIEAugmentation) (letter : UInt8) : CursorM CIEAugmentation :=
  if letter = 0x50 then do
    let encoding ← next f 1
    let routine ← nextEncodedPointer f encoding
    return { augmentation with personalityEncoding := encoding, personalityEncodingRoutine := routine }
  else if letter = 0x52 then return { augmentation with codeEnc := ← next f 1 }
  else if letter = 0x4c then return { augmentation with lsdaEnc := ← next f 1 }
  else if letter = 0x53 then pure { augmentation with isSignal := true }
  else pure augmentation

/-- The augmentation behind the string. Without a string it is not set; a string that does
not start with `z` is an error. -/
def parseAugmentation : List UInt8 → CursorM (Option (Option CIEAugmentation))
  | [] => pure (some none)
  | first :: letters =>
    if first = 0x7a then do
      let _ ← nextUleb128 f
      return some (some (← letters.foldlM (augmentationLetter f) .default))
    else pure none

/-- The fields in front of the instructions; `none` is an error. -/
def parseCIEFields : CursorM (Option (DecoderCIE × BitVec 64)) := do
  let version ← next f 1
  if version ≠ 1 ∧ version ≠ 3 then return none
  let string ← nextString f
  let codeAlignFactor ← nextUleb128 f
  let dataAlignFactor ← nextSleb128 f
  let retAddressReg ← nextUleb128 f
  match ← parseAugmentation f string with
  | some augmentation => return some (⟨codeAlignFactor, dataAlignFactor, augmentation⟩, retAddressReg)
  | none => return none

/-- The inner `none` is the null pointer of an error. -/
def parseCIE (start : DwarfCursor) (stop : Address) (length : BitVec 64) (index : Nat) :
    Option (Option DwarfCIE) := do
  let (fields, cursor) ← (parseCIEFields f).run start
  match fields with
  | none => return none
  | some (cie, retAddressReg) =>
    let state ← parseInstructions f fuel cie cursor stop
    return some { cie with startAddress := start.start, length, index, retAddressReg, state }

/-- The fields of an FDE under the augmentation of its CIE. The instructions behind them
are not parsed. -/
def parseFDEFields (augmentation : Option CIEAugmentation) : CursorM (BitVec 64 × BitVec 64 × Option (BitVec 64)) := do
  let codeEnc := match augmentation with
    | some augmentation => augmentation.codeEnc
    | none => 0
  let pcBegin ← nextEncodedPointer f codeEnc
  let pcRange ← nextEncodedPointer f (codeEnc &&& 0x0f)
  match augmentation with
  | some augmentation => do
    let _ ← nextUleb128 f
    let lsdaPointer ← nextEncodedPointer f augmentation.lsdaEnc
    return (pcBegin + f.virtualAddress - f.readAddress, pcRange, some lsdaPointer)
  | none => return (pcBegin + f.virtualAddress - f.readAddress, pcRange, none)

/-- The FDE that stands at the cursor, for a CIE with this augmentation or none. -/
def readFDE (start : DwarfCursor) (length : BitVec 64) (cieIndex : Nat) (entryID : BitVec 64)
    (augmentation : Option CIEAugmentation) : Option DwarfFDE := do
  let ((pcBegin, pcRange, lsda), _) ← (parseFDEFields f augmentation).run start
  return ⟨start.start, length, cieIndex, entryID, pcBegin, pcRange, lsda⟩

/-- The pointer to the augmentation is compared with null, but the constructor of the CIE
leaves it as the memory was. -/
def parseFDE (info : DwarfUnwindInfo) (start : DwarfCursor) (length : BitVec 64) (cieIndex : Nat)
    (entryID : BitVec 64) : Option DwarfFDE := do
  let cie ← info.getCIE cieIndex
  let augmentation ← cie.augmentation
  readFDE f start length cieIndex entryID (some augmentation)

/-! ## The loop -/

/-- The length of an entry, and the distance from its start to its end. -/
def nextLength : CursorM (BitVec 64 × BitVec 64) := do
  let length ← next f 4
  if length = 0xffffffff then
    let length ← next f 8
    return (length, length + 8)
  else return (length, length + 4)

/-- The entry behind its length. An FDE of an unknown CIE is left out. -/
def parseEntry (info : DwarfUnwindInfo) (start : DwarfCursor) (stop : Address) (length : BitVec 64) :
    Option DwarfUnwindInfo := do
  let startOfEntry := start.cursor
  let (entryID, start) ← (next f 4).run start
  if entryID = 0 then info.addCIE (← parseCIE f fuel start stop length info.cieList.length)
  else match info.findCIE (startOfEntry - entryID) with
    | some cieIndex => return info.addFDE (← parseFDE f info start length cieIndex entryID)
    | none => return info

/-- `parse` from a start on, with the starts of its rounds; `none` when the rounds run out. -/
def parse : Nat → DwarfUnwindInfo → Address → Option (DwarfUnwindInfo × List Address)
  | 0, _, _ => none
  | rounds + 1, info, start =>
    if start < f.endAddress then do
      let ((length, entryLength), cursor) ← (nextLength f).run (.at start)
      if length = 0 then return (info, [start])
      let endOfEntry := start + entryLength
      let info ← parseEntry f fuel info cursor endOfEntry length
      let (info, starts) ← parse rounds info endOfEntry
      return (info, start :: starts)
    else return (info, [])

end Entry

end Egalito.Dwarf
