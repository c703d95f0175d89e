import Egalito.Lib.Ordered
/-!
# Symbol tables

`SymbolTableContent` from `generate/concretedeferred.cpp`, with the string list
and the sorted map of `generate/deferred.h` behind it. The vector of section
symbols and the callbacks that run when a table is written are left out.
-/

open Egalito.Lib

namespace Egalito.GnuHash

abbrev Address := BitVec 64

/-- What `c_str()` points to: the bytes before a terminating zero. -/
structure CString where
  bytes : List UInt8
  noNul : 0 ∉ bytes
deriving DecidableEq

/-! ## `DeferredStringList` -/

abbrev StringList := List UInt8

namespace StringList

/-- `add(name, true)`: the list with the name and its zero, and where the name starts. -/
def add (output : StringList) (name : CString) : StringList × Nat :=
  (output ++ (name.bytes ++ [0]), output.length)

/-- The C string at an index. -/
def cString (output : StringList) (index : Nat) : List UInt8 :=
  (output.drop index).takeWhile (· ≠ 0)

end StringList

/-! ## Symbols -/

inductive SymbolType
  | func
  | ifunc
  | object
  | section
  | file
  | tls
  | notype
  | unknown
deriving DecidableEq, Repr

inductive BindingType
  | local
  | global
  | weak
deriving DecidableEq, Repr

/-- `Symbol::typeFromInternalToElf`, with the `STT_` constants. -/
def SymbolType.toElf : SymbolType → BitVec 8
  | func => 2
  | ifunc => 10
  | object => 1
  | «section» => 3
  | file => 4
  | tls => 6
  | _ => 0

/-- `Symbol::bindFromInternalToElf`, with the `STB_` constants. -/
def BindingType.toElf : BindingType → BitVec 8
  | «local» => 0
  | «global» => 1
  | weak => 2

structure Symbol where
  name : CString
  type : SymbolType
  bind : BindingType
  size : BitVec 64
  sectionIndex : BitVec 64
deriving DecidableEq

/-- `ElfXX_Sym`. -/
structure ElfSym where
  stName : BitVec 32
  stInfo : BitVec 8
  stOther : BitVec 8
  stShndx : BitVec 16
  stValue : Address
  stSize : BitVec 64
deriving DecidableEq

/-- `ELFXX_ST_INFO` of a symbol. -/
def Symbol.info (sym : Symbol) : BitVec 8 := (sym.bind.toElf <<< 4) + (sym.type.toElf &&& 0xf)

/-! ## `SymbolInTable` -/

inductive EntryType
  | null
  | section
  | plt
  | local
  | undef
  | global
deriving DecidableEq, Repr

/-- The value of the enumerator. -/
def EntryType.toNat : EntryType → Nat
  | null => 0
  | «section» => 1
  | plt => 2
  | «local» => 3
  | undef => 4
  | «global» => 5

structure SymbolInTable where
  type : EntryType
  sym : Option Symbol
  tableIndex : Nat
deriving DecidableEq

/-- The sign of `std::strcmp`. -/
def strcmp : List UInt8 → List UInt8 → Ordering
  | [], [] => .eq
  | [], _ :: _ => .lt
  | _ :: _, [] => .gt
  | x :: xs, y :: ys => if x < y then .lt else if y < x then .gt else strcmp xs ys

namespace SymbolInTable

/-- `int section = sym->getSectionIndex()`. -/
def sectionOf (sym : Symbol) : Int := (sym.sectionIndex.truncate 32).toInt

/-- `operator <`. -/
def lt (a b : SymbolInTable) : Bool :=
  if a.tableIndex < b.tableIndex then true
  else if a.tableIndex > b.tableIndex then false
  else if a.type.toNat < b.type.toNat then true
  else if a.type.toNat > b.type.toNat then false
  else match a.sym, b.sym with
    | none, some _ => true
    | some _, none => false
    | none, none => false
    | some s, some t =>
      match strcmp s.name.bytes t.name.bytes with
      | .lt => true
      | .gt => false
      | .eq => sectionOf s < sectionOf t

/-- The text `(null)`. -/
def nullName : List UInt8 := [40, 110, 117, 108, 108, 41]

def getName (key : SymbolInTable) : List UInt8 :=
  match key.sym with
  | some sym => sym.name.bytes
  | none => nullName

end SymbolInTable

/-! ## `DeferredMap` -/

/-- The address of a `DeferredValue`. -/
abbrev Pointer := Nat

/-- The vector, the map and the reverse map; a `std::map` is given in its order. -/
structure DeferredMap where
  valueList : List Pointer
  valueMap : List (SymbolInTable × Pointer)
  reverseMap : Pointer → SymbolInTable

namespace DeferredMap

/-- `operator []` of the reverse map makes an empty key. -/
def empty : DeferredMap := ⟨[], [], fun _ => ⟨.null, none, 0⟩⟩

/-- Neither less nor greater. -/
def sameKey (a b : SymbolInTable) : Bool := !SymbolInTable.lt a b && !SymbolInTable.lt b a

def find (m : DeferredMap) (key : SymbolInTable) : Option Pointer :=
  (m.valueMap.find? fun e => sameKey e.1 key).map Prod.snd

def contains (m : DeferredMap) (key : SymbolInTable) : Bool := (m.find key).isSome

def getKey (m : DeferredMap) (value : Pointer) : SymbolInTable := m.reverseMap value

/-- The vector is searched with `std::upper_bound`, by the keys of its values. -/
def insertSorted (m : DeferredMap) (key : SymbolInTable) (value : Pointer) : DeferredMap :=
  if m.contains key then m
  else
    let m := { m with
      valueMap := insertUpper (fun a b => SymbolInTable.lt a.1 b.1) (key, value) m.valueMap
      reverseMap := Function.update m.reverseMap value key }
    { m with
      valueList := insertUpper (fun a b => SymbolInTable.lt (m.getKey a) (m.getKey b)) value m.valueList }

/-- `indexOf`, after `recalculateIndices`. -/
def indexOf (m : DeferredMap) : Pointer → Option Nat := numbered m.valueList

end DeferredMap

/-! ## `SymbolTableContent` -/

structure SymbolTable where
  strtab : StringList
  /-- The values allocated so far. -/
  heap : List ElfSym
  map : DeferredMap
  firstGlobalIndex : Nat

/-- The parts of a function that a symbol is made from. -/
structure Function where
  name : CString
  address : Address
  size : BitVec 64

structure PLTTrampoline where
  address : Address
  size : BitVec 64

namespace SymbolTable

variable (t : SymbolTable)

def empty (strtab : StringList) : SymbolTable := ⟨strtab, [], .empty, 0⟩

def elfSym (value : Pointer) : ElfSym := t.heap.getD value ⟨0, 0, 0, 0, 0, 0⟩

/-- `insertSorted(key, new DeferredType(symbol))`. -/
def insertNew (key : SymbolInTable) (symbol : ElfSym) : SymbolTable :=
  { t with heap := t.heap ++ [symbol], map := t.map.insertSorted key t.heap.length }

def countLocal : SymbolTable := { t with firstGlobalIndex := t.firstGlobalIndex + 1 }

def addNullSymbol : SymbolTable :=
  let (strtab, index) := t.strtab.add ⟨[], by simp⟩
  let symbol := ⟨BitVec.ofNat 32 index, 0, 0, 0, 0, 0⟩
  ({ t with strtab := strtab }.insertNew ⟨.null, none, 0⟩ symbol).countLocal

def addSectionSymbol (sym : Symbol) : SymbolTable :=
  let symbol := ⟨0, sym.info, 0, sym.sectionIndex.truncate 16, 0, 0⟩
  (t.insertNew ⟨.section, some sym, 0⟩ symbol).countLocal

/-- The common part of the functions that add a named symbol: a local one has the type
`local`, another one has the given type. -/
def addNamed (type : EntryType) (sym : Symbol) (shndx : BitVec 16) (value : Address) (size : BitVec 64) :
    SymbolTable :=
  let key := ⟨if sym.bind = .local then .local else type, some sym, 0⟩
  if t.map.contains key then t
  else
    let (strtab, index) := t.strtab.add sym.name
    let symbol := ⟨BitVec.ofNat 32 index, sym.info, 0, shndx, value, size⟩
    let t := { t with strtab := strtab }.insertNew key symbol
    if sym.bind = .local then t.countLocal else t

/-- Without a symbol, one is made from the name of the function. -/
def addSymbol (func : Option Function) (sym : Option Symbol) : Option SymbolTable := do
  let sym ← match sym with
    | some sym => some sym
    | none => func.map fun func => ⟨func.name, .func, .global, 0, 0⟩
  match func with
  | some func => return t.addNamed .global sym 0 func.address func.size
  | none => return t.addNamed .undef sym 0 0 0

/-- `varSize` is the size of the variable, when there is one. -/
def addDataVarSymbol (varSize : Option (BitVec 64)) (sym : Symbol) (address : Address) (sectionIndex : BitVec 64) :
    SymbolTable :=
  t.addNamed .global sym (sectionIndex.truncate 16) address (varSize.getD 0)

def addGlobalVarSymbol (sym : Symbol) (address : Address) (sectionIndex : BitVec 64) : SymbolTable :=
  t.addNamed .global sym (sectionIndex.truncate 16) address sym.size

/-- Unlike the others, this one looks for no entry with its key. -/
def addPLTSymbol (plt : Option PLTTrampoline) (sym : Symbol) : SymbolTable :=
  let (strtab, index) := t.strtab.add sym.name
  let symbol := ⟨BitVec.ofNat 32 index, sym.info, 0, 0, (plt.map PLTTrampoline.address).getD 0,
    (plt.map PLTTrampoline.size).getD 0⟩
  ({ t with strtab := strtab }.insertNew ⟨.plt, some sym, 0⟩ symbol).countLocal

def addUndefinedSymbol (sym : Symbol) : Option SymbolTable := t.addSymbol none (some sym)

end SymbolTable

/-! ## Filling the table -/

/-- The calls that fill a table; `string` is another use of its string list. -/
inductive Insertion
  | string (data : CString)
  | nullSymbol
  | sectionSymbol (sym : Symbol)
  | symbol (func : Option Function) (sym : Option Symbol)
  | dataVarSymbol (varSize : Option (BitVec 64)) (sym : Symbol) (address : Address) (sectionIndex : BitVec 64)
  | globalVarSymbol (sym : Symbol) (address : Address) (sectionIndex : BitVec 64)
  | pltSymbol (plt : Option PLTTrampoline) (sym : Symbol)
  | undefinedSymbol (sym : Symbol)

def Insertion.run (t : SymbolTable) : Insertion → Option SymbolTable
  | string data => some { t with strtab := (t.strtab.add data).1 }
  | nullSymbol => some t.addNullSymbol
  | sectionSymbol sym => some (t.addSectionSymbol sym)
  | symbol func sym => t.addSymbol func sym
  | dataVarSymbol varSize sym address sectionIndex => some (t.addDataVarSymbol varSize sym address sectionIndex)
  | globalVarSymbol sym address sectionIndex => some (t.addGlobalVarSymbol sym address sectionIndex)
  | pltSymbol plt sym => some (t.addPLTSymbol plt sym)
  | undefinedSymbol sym => t.addUndefinedSymbol sym

def SymbolTable.build (t : SymbolTable) (insertions : List Insertion) : Option SymbolTable :=
  insertions.foldlM Insertion.run t

/-- The table that the generator makes first, with the text it puts into `.dynstr`. -/
def SymbolTable.dynsym : SymbolTable :=
  (SymbolTable.empty [49, 50, 51, 52, 53, 54, 0]).addNullSymbol

end Egalito.GnuHash
