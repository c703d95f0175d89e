import Egalito.Lib.Run
import Mathlib.Logic.Relation
/-!
# Aliases of symbols

The alias assignment of `SymbolList::buildSymbolList`, on the symbols in the order
of the table and with the types and sizes that are corrected before it. A symbol
is its position in the list. `SymbolAliasFinder` works on positions in a list
sorted by address.
-/

open Egalito.Lib

namespace Egalito.Elf

/-! ## Symbols -/

inductive SymbolType
  | func | ifunc | object | sectionType | file | tls | noType | unknown
deriving DecidableEq, Repr, Inhabited

inductive BindingType
  | bindLocal | bindGlobal | bindWeak
deriving DecidableEq, Repr, Inhabited

structure Symbol where
  address : UInt64
  size : UInt64
  name : List Char
  type : SymbolType
  bind : BindingType
  shndx : UInt64
deriving DecidableEq, Repr, Inhabited

/-! ## Union-find -/

/-- `edges` counts the edges that were set: no path is longer. -/
structure UnionFind where
  parent : Nat → Nat
  edges : Nat

def UnionFind.new : UnionFind := ⟨id, 0⟩

/-- `while(parent[x] != x) { x = parent[x]; }`, for at most this many rounds. -/
def findLoop (parent : Nat → Nat) : Nat → Nat → Nat
  | 0, x => x
  | count + 1, x => if parent x = x then x else findLoop parent count (parent x)

def UnionFind.find (uf : UnionFind) (x : Nat) : Nat := findLoop uf.parent uf.edges x

/-! ## `SymbolAliasFinder` -/

section AliasFinder

variable (symbols : List Symbol) (sortedList : List Nat)

/-- The symbol at a position of the sorted list. -/
def getSymbol (i : Nat) : Nat := sortedList[i]?.getD 0

def symbolAt (i : Nat) : Symbol := symbols[getSymbol sortedList i]?.getD default

def isMapping (s : Symbol) : Bool := s.bind = .bindLocal && s.name.head? = some '$'

def strstr (name part : List Char) : Bool := part <:+: name

/-- Returning -1 means set parent[x1] = x2; returning +1 means set parent[x2] = x1. -/
def edgeComparator (x1 x2 : Nat) : Int :=
  let s1 := symbolAt symbols sortedList x1
  let s2 := symbolAt symbols sortedList x2
  if s1.type ≠ s2.type ∧ s1.type = .sectionType then -1
  else if s1.type ≠ s2.type ∧ s2.type = .sectionType then 1
  else if s1.type ≠ s2.type ∧ s1.type = .file then -1
  else if s1.type ≠ s2.type ∧ s2.type = .file then 1
  else if isMapping s1 then -1
  else if isMapping s2 then 1
  else if strstr s1.name s2.name then -1
  else if strstr s2.name s1.name then 1
  else if strstr s1.name ['@', '@'] then 1
  else if strstr s2.name ['@', '@'] then -1
  else if strstr s1.name ['@'] then -1
  else if strstr s2.name ['@'] then 1
  else if s1.bind ≠ s2.bind ∧ s1.bind = .bindLocal then -1
  else if s1.bind ≠ s2.bind ∧ s2.bind = .bindLocal then 1
  else if s1.bind ≠ s2.bind ∧ s1.bind = .bindGlobal then 1
  else if s1.bind ≠ s2.bind ∧ s2.bind = .bindGlobal then -1
  else if s1.bind ≠ s2.bind ∧ s1.bind = .bindWeak then 1
  else if s1.bind ≠ s2.bind ∧ s2.bind = .bindWeak then -1
  else if s1.size ≠ s2.size ∧ s1.size = 0 then -1
  else if s1.size ≠ s2.size ∧ s2.size = 0 then 1
  else -1

def setEdge (uf : UnionFind) (x1 x2 : Nat) : UnionFind :=
  let comparator := edgeComparator symbols sortedList x1 x2
  if comparator < 0 then ⟨Function.update uf.parent x1 x2, uf.edges + 1⟩
  else if comparator > 0 then ⟨Function.update uf.parent x2 x1, uf.edges + 1⟩
  else uf

def join (uf : UnionFind) (x1 x2 : Nat) : UnionFind := setEdge symbols sortedList uf (uf.find x1) (uf.find x2)

/-- The inner loop of `constructByAddress`, over the positions behind `i`. -/
def joinFollowing (i : Nat) : UnionFind → List Nat → UnionFind
  | uf, [] => uf
  | uf, j :: js =>
    let sym := symbolAt symbols sortedList i
    let sym2 := symbolAt symbols sortedList j
    if sym.address ≠ sym2.address then uf
    else if sym2.type ≠ .file ∧ sym.shndx = sym2.shndx then joinFollowing i (join symbols sortedList uf i j) js
    else joinFollowing i uf js

def constructByAddress : UnionFind :=
  (List.range sortedList.length).foldl (fun uf i =>
    if (symbolAt symbols sortedList i).type = .file then uf
    else joinFollowing symbols sortedList i uf (List.range' (i + 1) (sortedList.length - (i + 1)))) .new

def getRepresentativeIndex (i : Nat) : Nat := (constructByAddress symbols sortedList).find i

end AliasFinder

/-! ## The alias assignment -/

structure Aliases where
  aliasFor : Nat → Option Nat
  aliasList : Nat → List Nat

def Aliases.setAliasFor (a : Aliases) (sym target : Nat) : Aliases :=
  { a with aliasFor := Function.update a.aliasFor sym (some target) }

def Aliases.addAlias (a : Aliases) (sym aliasSym : Nat) : Aliases :=
  { a with aliasList := Function.update a.aliasList sym (a.aliasList sym ++ [aliasSym]) }

def aliasByAddress (symbols : List Symbol) (sortedList : List Nat) (a : Aliases) (i : Nat) : Aliases :=
  let rep := getRepresentativeIndex symbols sortedList i
  if rep ≠ i then
    let sym := getSymbol sortedList i
    let repSym := getSymbol sortedList rep
    (a.setAliasFor sym repSym).addAlias repSym sym
  else a

/-- The symbols whose names must be unique. -/
def isNamed (s : Symbol) : Bool :=
  s.name ≠ [] && s.bind ≠ .bindLocal && s.type ≠ .sectionType && s.type ≠ .file

structure NameState where
  seenNamed : List Char → Option Nat
  aliases : Aliases

def aliasByName (symbols : List Symbol) (st : NameState) (sym : Nat) : NameState :=
  let s := symbols[sym]?.getD default
  if isNamed s then
    match st.seenNamed s.name with
    | some prevSym =>
      let a := if st.aliases.aliasFor sym = none then st.aliases.setAliasFor sym prevSym else st.aliases
      { st with aliases := a.addAlias prevSym sym }
    | none => { st with seenNamed := Function.update st.seenNamed s.name (some sym) }
  else st

def aliasesByAddress (symbols : List Symbol) (sortedList : List Nat) : Aliases :=
  (List.range symbols.length).foldl (aliasByAddress symbols sortedList) ⟨fun _ => none, fun _ => []⟩

def buildAliases (symbols : List Symbol) (sortedList : List Nat) : Aliases :=
  ((List.range symbols.length).foldl (aliasByName symbols)
    ⟨fun _ => none, aliasesByAddress symbols sortedList⟩).aliases

/-! ## Canonical aliases -/

/-- One step from an alias to its representative, one representative in each group, and its
list has the group's aliases. -/
structure Canonical (a : Aliases) : Prop where
  direct : ∀ s q, a.aliasFor s = some q → a.aliasFor q = none
  unique : ∀ s, ∃! q, Relation.EqvGen (fun s q => a.aliasFor s = some q) s q ∧ a.aliasFor q = none
  list : ∀ q, a.aliasFor q = none → ∀ s, s ∈ a.aliasList q ↔ a.aliasFor s = some q

/-! ## When the two passes fit -/

/-- The first symbol before this one that has its name, among those whose names must be unique. -/
def firstNamed (symbols : List Symbol) (sym : Nat) : Option Nat :=
  let s := symbols[sym]?.getD default
  if isNamed s then
    (List.range sym).find? fun prev =>
      isNamed (symbols[prev]?.getD default) && (symbols[prev]?.getD default).name = s.name
  else none

/-- The representative that `SymbolAliasFinder` gives a symbol, where it is another symbol. -/
def addressAlias (symbols : List Symbol) (sortedList : List Nat) (sym : Nat) : Option Nat :=
  let i := sortedList.idxOf sym
  let rep := getRepresentativeIndex symbols sortedList i
  if sym < symbols.length ∧ rep ≠ i then some (getSymbol sortedList rep) else none

/-- A symbol with the name of an earlier one: it is an alias by its address, and the earlier one is it
too or is its representative; or neither is an alias by its address, and nor is any symbol for this one. -/
def NamesFit (symbols : List Symbol) (sortedList : List Nat) : Prop :=
  ∀ sym prev, sym < symbols.length → firstNamed symbols sym = some prev →
    let byAddress := addressAlias symbols sortedList
    (byAddress sym ≠ none ∧ (byAddress prev ≠ none ∨ byAddress sym = some prev)) ∨
    (byAddress sym = none ∧ byAddress prev = none ∧ ∀ other, byAddress other ≠ some sym)

end Egalito.Elf
