import Egalito.GnuHash.SymbolTable
/-!
# `MakeDynsymHash`

The pass of `generate/concrete.cpp` that fills `.gnu.hash` and sorts `.dynsym`
by bucket, and the lookup that a dynamic loader does in the result. The content
is given as 32-bit words; a 64-bit word is added with its lower half first.
-/

open Egalito.Lib

namespace Egalito.GnuHash

abbrev Name := List UInt8

abbrev Word := BitVec 32

/-- `bfd_elf_gnu_hash`. -/
def bfdElfGnuHash (name : Name) : BitVec 64 :=
  let h := name.foldl (fun (h : BitVec 64) ch => (h <<< 5) + h + BitVec.ofNat 64 ch.toNat) 5381
  h &&& 0xffffffff

/-! ## The pass over the symbols -/

abbrev BucketList := List (List Name)

structure HashPass where
  hashing : Bool
  firstHashedSymbol : Nat
  bucketList : BucketList

namespace HashPass

/-- One symbol. Hashing starts at the first one with an address. -/
def visit (strtab : StringList) (p : HashPass) (elfSym : ElfSym) : HashPass :=
  let hashing := if elfSym.stValue ≠ 0 then true else p.hashing
  if !hashing then { p with firstHashedSymbol := p.firstHashedSymbol + 1 }
  else
    let name := strtab.cString elfSym.stName.toNat
    let hash := (bfdElfGnuHash name).toNat
    { p with
      hashing := hashing
      bucketList := p.bucketList.modify (hash % p.bucketList.length) (· ++ [name]) }

def run (strtab : StringList) (symbols : List ElfSym) : HashPass :=
  symbols.foldl (visit strtab) ⟨false, 0, List.replicate 1011 []⟩

end HashPass

/-- The counter over all buckets; a name that occurs again gets the later value. -/
def makeIndexMap (bucketList : BucketList) : Name → Option Nat := numbered bucketList.flatten

/-! ## The content of the section -/

def bloomShift : Nat := 5

def bloomList : List (BitVec 64) := List.replicate 0x100 (BitVec.allOnes 64)

def bucketWords : BucketList → Nat → List Word
  | [], _ => []
  | bucket :: buckets, symIndex =>
    if bucket.length ≠ 0 then BitVec.ofNat 32 symIndex :: bucketWords buckets (symIndex + bucket.length)
    else 0 :: bucketWords buckets symIndex

/-- The last name of a bucket ends its chain; the names are compared. -/
def chainWord (bucket : List Name) (name : Name) : Word :=
  let value : Word := (bfdElfGnuHash name &&& ~~~1).truncate 32
  if bucket.getLast? = some name then value + 1 else value

def chainWords (bucket : List Name) : List Word := bucket.map (chainWord bucket)

def addWord64 (value : BitVec 64) : List Word := [value.truncate 32, (value >>> 32).truncate 32]

def HashPass.content (p : HashPass) : List Word :=
  [BitVec.ofNat 32 p.bucketList.length, BitVec.ofNat 32 p.firstHashedSymbol, BitVec.ofNat 32 bloomList.length,
    BitVec.ofNat 32 bloomShift] ++
  bloomList.flatMap addWord64 ++ bucketWords p.bucketList p.firstHashedSymbol ++ p.bucketList.flatMap chainWords

/-! ## Sorting the symbol table -/

/-- A key with the index of its name. -/
def newKey (indexMap : Name → Option Nat) (key : SymbolInTable) : SymbolInTable :=
  match indexMap key.getName with
  | some index => { key with tableIndex := index }
  | none => key

/-- The map is cleared, and all values are inserted again. -/
def reinsert (indexMap : Name → Option Nat) (oldValueMap : List (SymbolInTable × Pointer)) : DeferredMap :=
  oldValueMap.foldl (fun m pair => m.insertSorted (newKey indexMap pair.1) pair.2) .empty

namespace SymbolTable

variable (dynsym : SymbolTable)

def hashPass : HashPass := HashPass.run dynsym.strtab (dynsym.map.valueList.map dynsym.elfSym)

/-- `MakeDynsymHash::execute`: the content of `.gnu.hash`, and the new table. -/
def makeDynsymHash : List Word × SymbolTable :=
  let pass := dynsym.hashPass
  (pass.content, { dynsym with map := reinsert (makeIndexMap pass.bucketList) dynsym.map.valueMap })

end SymbolTable

/-! ## Lookup -/

/-- The hash function of the format. -/
def gnuHash (name : Name) : Word :=
  name.foldl (fun h c => h * 33 + BitVec.ofNat 32 c.toNat) 5381

/-- A chain, from the symbol `symix` on. `none` is a read outside of a table, `some none` is
the end of the chain. -/
def lookupChain (names : List Name) (name : Name) : List Word → Nat → Option (Option Nat)
  | [], _ => none
  | hash :: chain, symix => do
    let symname ← names[symix]?
    if gnuHash name ||| 1 = hash ||| 1 ∧ symname = name then return some symix
    else if hash &&& 1 ≠ 0 then return none
    else lookupChain names name chain (symix + 1)

/-- The lookup of the format: the filter, the bucket, the chain. `names` are the names in
the symbol table. -/
def gnuLookup (words : List Word) (names : List Name) (name : Name) : Option (Option Nat) := do
  let nbuckets ← words[0]?
  let symoffset ← words[1]?
  let bloomSize ← words[2]?
  let shift ← words[3]?
  let hash := gnuHash name
  let bloom := 4 + 2 * (hash.toNat / 64 % bloomSize.toNat)
  let low ← words[bloom]?
  let high ← words[bloom + 1]?
  let mask : BitVec 64 := 1#64 <<< (hash.toNat % 64) ||| 1#64 <<< (hash.toNat >>> shift.toNat % 64)
  if (high ++ low : BitVec 64) &&& mask ≠ mask then return none
  let buckets := 4 + 2 * bloomSize.toNat
  let symix ← words[buckets + hash.toNat % nbuckets.toNat]?
  if symix < symoffset then return none
  lookupChain names name (words.drop (buckets + nbuckets.toNat + (symix.toNat - symoffset.toNat))) symix.toNat

namespace SymbolTable

/-- The name of a value, as it is found in the string list. -/
def nameOf (t : SymbolTable) (value : Pointer) : Name := t.strtab.cString (t.elfSym value).stName.toNat

/-- A lookup in what the pass emits. -/
def lookup (t : SymbolTable) (name : Name) : Option (Option Nat) :=
  gnuLookup t.makeDynsymHash.1 (t.makeDynsymHash.2.map.valueList.map t.makeDynsymHash.2.nameOf) name

end SymbolTable

end Egalito.GnuHash
