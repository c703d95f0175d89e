import Egalito.Transform.Generator
import Egalito.Lib.Gaps
/-!
# The firmware image

`generate/bingen.cpp`: `reassignFunctionAddress` and `interleaveData` give the
functions and data sections of the main module and the addon their addresses,
and `writeOut` goes over them a second time. `none` is a step without a defined
result, or one that throws.
-/

open Egalito.Lib Egalito.Transform

namespace Egalito.Generate

/-- A function with what its instructions write, which has the size of the function. -/
structure BinFunction where
  address : UInt64
  size : UInt64
  instructions : List (List UInt8)
  size_eq : size.toNat = instructions.flatten.length

inductive DataSectionType
  | unknown | bss | data | code | initArray | finiArray | dynamic
deriving DecidableEq

/-- A data section with its bytes; a `.bss` has none in the image. -/
structure BinSection where
  type : DataSectionType
  address : UInt64
  size : UInt64
  alignment : UInt64
  bytes : List UInt8
  size_eq : type ≠ .bss → size.toNat = bytes.length
  power : alignment = 0 ∨ ∃ k, alignment.toNat = 2 ^ k

structure BinRegion where
  writable : Bool
  children : List Nat

structure BinModule where
  functions : List Nat
  regions : List BinRegion

/-- What is placed in the image. -/
inductive BinChunk
  | function (i : Nat)
  | section (i : Nat)
deriving DecidableEq

def BinModule.chunks (m : BinModule) : List BinChunk :=
  m.functions.map .function ++ m.regions.flatMap fun region => region.children.map .section

/-- The functions and sections by number, and the alignments of the sections `.rodata`, `.data`
and `.bss` of the main module's ELF file, where it has them. -/
structure BinProgram where
  function : Nat → BinFunction
  dataSection : Nat → BinSection
  main : BinModule
  addon : Option BinModule
  rodataAlign : Option UInt64
  dataAlign : Option UInt64
  bssAlign : Option UInt64
  nodup : (main.chunks ++ addon.elim [] BinModule.chunks).Nodup
  power : ∀ align, rodataAlign = some align ∨ dataAlign = some align → align = 0 ∨ ∃ k, align.toNat = 2 ^ k

/-- The addresses of the chunks. -/
abbrev Addresses := BinChunk → UInt64

namespace BinProgram

variable (std : StdSort) (program : BinProgram)

def size : BinChunk → UInt64
  | .function i => (program.function i).size
  | .section i => (program.dataSection i).size

def bytes : BinChunk → List UInt8
  | .function i => (program.function i).instructions.flatten
  | .section i => (program.dataSection i).bytes

/-- The addresses before any are assigned. -/
def original : Addresses
  | .function i => (program.function i).address
  | .section i => (program.dataSection i).address

def modules : List BinModule := program.main :: program.addon.toList

/-! ## The layout -/

/-- `ROUND_UP_BY` -/
def roundUpBy (x y : UInt64) : UInt64 := x + y - 1 &&& ~~~(y - 1)

def makeSortedFunctionList (at_ : Addresses) (m : BinModule) : List Nat :=
  std.sort (fun i => at_ (.function i)) m.functions

/-- The position is set, and the next chunk follows. -/
def setPosition (r : Addresses × UInt64) (x : BinChunk) (address : UInt64) : Addresses × UInt64 :=
  (Function.update r.1 x address, address + program.size x)

/-- A function of the main module keeps the alignment that its old address shows. -/
def reassignMain (r : Addresses × UInt64) (i : Nat) : Addresses × UInt64 :=
  let org := r.1 (.function i)
  program.setPosition r (.function i) (roundUpBy r.2 (org &&& -org))

def reassignAddon (r : Addresses × UInt64) (i : Nat) : Addresses × UInt64 :=
  program.setPosition r (.function i) r.2

/-- The end of the last function in the list. -/
def endOfList (at_ : Addresses) (list : List Nat) : Option UInt64 := do
  let i ← list.getLast?
  return at_ (.function i) + program.size (.function i)

/-- The new addresses with the end of the code. -/
def reassignFunctionAddress (at_ : Addresses) : Option (Addresses × UInt64) := do
  let list := makeSortedFunctionList std at_ program.main
  let front ← list.head?
  let r := list.foldl program.reassignMain (at_, at_ (.function front))
  match program.addon with
  | none => return (r.1, ← program.endOfList r.1 list)
  | some addon =>
    let list := makeSortedFunctionList std r.1 addon
    let r := list.foldl program.reassignAddon r
    return (r.1, ← program.endOfList r.1 list)

/-- The sections of a region that are written, in the order of its children. -/
def dataSectionList (region : BinRegion) : List Nat :=
  region.children.filter fun i => (program.dataSection i).type ≠ .code ∧ (program.dataSection i).type ≠ .bss

def remapSection (r : Addresses × UInt64) (i : Nat) : Addresses × UInt64 :=
  program.setPosition r (.section i) (roundUpBy r.2 (program.dataSection i).alignment)

def remapRegion (writable : Bool) (r : Addresses × UInt64) (region : BinRegion) : Addresses × UInt64 :=
  if region.writable ≠ writable then r
  else (std.sort (fun i => r.1 (.section i)) (program.dataSectionList region)).foldl program.remapSection r

def remapData (m : BinModule) (writable : Bool) (r : Addresses × UInt64) : Addresses × UInt64 :=
  m.regions.foldl (program.remapRegion std writable) r

def remapBssSection (r : Addresses × UInt64) (i : Nat) : Addresses × UInt64 :=
  if (program.dataSection i).type = .bss then program.setPosition r (.section i) r.2 else r

def remapBss (m : BinModule) (r : Addresses × UInt64) : Addresses × UInt64 :=
  m.regions.foldl (fun r region => region.children.foldl program.remapBssSection r) r

/-- At least a page, and what the section of the main module asks for. -/
def pageAlign (align : Option UInt64) : UInt64 :=
  match align with
  | some align => if 0x1000 < align then align else 0x1000
  | none => 0x1000

def alignUp (pos : UInt64) (align : Option UInt64) : UInt64 := roundUpBy pos (pageAlign align)

/-- The data of both modules, one kind of it. -/
def remapBoth (writable : Bool) (r : Addresses × UInt64) : Addresses × UInt64 :=
  let r := program.remapData std program.main writable r
  match program.addon with
  | none => r
  | some addon => program.remapData std addon writable (r.1, roundUpBy r.2 8)

def interleaveData (r : Addresses × UInt64) : Addresses :=
  let r := program.remapBoth std false (r.1, alignUp r.2 program.rodataAlign)
  let r := program.remapBoth std true (r.1, alignUp r.2 program.dataAlign)
  let r := program.remapBss program.main (r.1, alignUp r.2 program.bssAlign)
  (match program.addon with
  | none => r
  | some addon => program.remapBss addon r).1

/-- Both steps of the layout. -/
def layout : Option Addresses := do
  let r ← program.reassignFunctionAddress std program.original
  return program.interleaveData std r

/-! ## The output -/

/-- What a file can hold; a string of zeros that is longer throws. -/
def maxFile : Nat := 2 ^ 63 - 1

/-- One chunk, behind zeros up to its address. The number of zeros wraps around where the
address is below the position. -/
def writeChunk (at_ : Addresses) (r : List UInt8 × UInt64) (x : BinChunk) : Option (List UInt8 × UInt64) :=
  let zeros := if r.2 ≠ at_ x then (at_ x - r.2).toNat else 0
  if r.1.length + zeros + (program.bytes x).length ≤ maxFile then
    some (r.1 ++ (List.replicate zeros 0 ++ program.bytes x), at_ x + program.size x)
  else none

def writeOutCode (at_ : Addresses) (m : BinModule) (r : List UInt8 × UInt64) : Option (List UInt8 × UInt64) :=
  (makeSortedFunctionList std at_ m).foldlM (fun r i => program.writeChunk at_ r (.function i)) r

def writeOutRegion (at_ : Addresses) (writable : Bool) (r : List UInt8 × UInt64) (region : BinRegion) :
    Option (List UInt8 × UInt64) :=
  if region.writable ≠ writable then some r
  else (program.dataSectionList region).foldlM (fun r i => program.writeChunk at_ r (.section i)) r

def writeOutData (at_ : Addresses) (writable : Bool) (m : BinModule) (r : List UInt8 × UInt64) :
    Option (List UInt8 × UInt64) :=
  m.regions.foldlM (program.writeOutRegion at_ writable) r

/-- The code of all modules, then their read-only data, then the rest. -/
def writeOut (at_ : Addresses) (pos : UInt64) : Option (List UInt8) := do
  let r ← program.modules.foldlM (fun r m => program.writeOutCode std at_ m r) ([], pos)
  let r ← program.modules.foldlM (fun r m => program.writeOutData at_ false m r) r
  let r ← program.modules.foldlM (fun r m => program.writeOutData at_ true m r) r
  return r.1

end BinProgram

end Egalito.Generate
