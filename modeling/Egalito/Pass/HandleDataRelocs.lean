import Egalito.Elf.SymbolAlias
import Egalito.IntervalTree.Range
/-!
# `HandleDataRelocsPass`

`pass/handledatarelocs.cpp` for x86-64. The pass makes a variable for every data
relocation of a module, and is run several times with different resolvers.
`none` is an assertion that fails, an exception, or a null pointer.
-/

open Egalito.Lib Egalito.Elf

namespace Egalito.HandleDataRelocs

/-! ## Relocations -/

inductive RelocType
  | none | abs64 | copy | globDat | jumpSlot | relative | dtpMod64 | dtpOff64 | tpOff64 | irelative
  | other (code : UInt32)
deriving DecidableEq, Repr

structure Reloc where
  address : Address
  type : RelocType
  symbol : Option Symbol
  addend : Int
deriving DecidableEq, Repr

/-- `infoLink` is 0 for the relocations of a whole file. -/
structure RelocSection where
  infoLink : Nat
  relocs : List Reloc
deriving DecidableEq, Repr

/-! ## Data regions -/

structure DataRegion where
  range : Range
  sections : List Range
deriving DecidableEq, Repr

/-- The TLS region is one of the regions; its initialised data comes before all others. -/
structure DataRegionList where
  regions : List DataRegion
  tls : Option (Nat × Range)
deriving DecidableEq, Repr

/-- The region and the section in it, by their positions. -/
abbrev SectionId := Nat × Nat

def DataRegionList.findRegionContaining (list : DataRegionList) (target : Address) : Option Nat :=
  match list.tls with
  | some (tls, data) =>
    if data.contains target then some tls
    else (List.range list.regions.length).find? fun i =>
      i ≠ tls && (list.regions[i]?.map (·.range.contains target)).getD false
  | none => list.regions.findIdx? (·.range.contains target)

def DataRegionList.findDataSectionContaining (list : DataRegionList) (address : Address) : Option SectionId := do
  let region ← list.findRegionContaining address
  let sec ← (← list.regions[region]?).sections.findIdx? (·.contains address)
  return (region, sec)

def DataRegionList.contains (list : DataRegionList) (sec : SectionId) (address : Address) : Bool :=
  ((list.regions[sec.1]?.bind (·.sections[sec.2]?)).map (·.contains address)).getD false

/-! ## Links and variables -/

/-- The classes that the pass asks for with a `dynamic_cast`. -/
inductive LinkClass
  | absoluteDataLink | dataOffsetLink | normalLink | otherLink
deriving DecidableEq, Repr

/-- A link from a resolver, or one that the pass makes itself. An external symbol is named by its symbol. -/
inductive Link
  | resolved (cls : LinkClass) (target : Nat) (addend : Int)
  | tlsDataOffset (tls : Bool) (symbol : Option Symbol) (addend : Int)
  | externalSymbol (symbol : Symbol) (addend : Int)
  | internalAndExternal (symbol : Symbol) (target : Nat)
  | copyReloc (symbol : Symbol)
deriving DecidableEq, Repr

structure DataVariable where
  parent : SectionId
  address : Address
  dest : Option Link
  size : Nat
  targetSymbol : Option Symbol
  isCopy : Bool
deriving DecidableEq, Repr

/-- The variables of all sections, in the order in which they were made. -/
abbrev Variables := List DataVariable

def at_ (sec : SectionId) (address : Address) (var : DataVariable) : Bool :=
  var.parent = sec && var.address = address

def findVariable (vars : Variables) (sec : SectionId) (address : Address) : Option DataVariable :=
  vars.find? (at_ sec address)

/-- A change of the variable that `findVariable` gives. -/
def updateVariable (sec : SectionId) (address : Address) (f : DataVariable → DataVariable) : Variables → Variables
  | [] => []
  | var :: vars => if at_ sec address var then f var :: vars else var :: updateVariable sec address f vars

/-! ## The module, and one run -/

/-- An ELF section: its relocations, if it has some under its name. -/
structure ElfSection where
  name : String
  execInstr : Bool
  relocSection : Option RelocSection
deriving DecidableEq, Repr

structure Module where
  baseAddress : Address
  sections : List ElfSection
  dataRegionList : DataRegionList
deriving Repr

/-- One run: the flags of the pass, and what `PerfectLinkResolver` finds at that time. -/
structure Run where
  internal : Bool
  weak : Bool
  resolveInternally : Reloc → Bool → Bool → Option (LinkClass × Nat)
  resolveExternally : Option Symbol → Bool → Option (LinkClass × Nat)

def toLink (l : LinkClass × Nat) : Link := .resolved l.1 l.2 0

section Resolve

variable (run : Run) (m : Module) (reloc : Reloc)

/-- A slot of the GOT or the PLT: outside first, or with an external symbol beside what is found inside. -/
def resolveSlot : Option (Option Link) :=
  if run.internal then
    match run.resolveInternally reloc run.weak false with
    | some (.absoluteDataLink, target) => reloc.symbol.map fun symbol => some (.internalAndExternal symbol target)
    | _ => some none
  else some (((run.resolveExternally reloc.symbol run.weak).or
    (run.resolveInternally reloc run.weak false)).map toLink)

/-- The types that have no branch of their own. -/
def resolveOther : Option (Option Link) :=
  if run.internal then some ((run.resolveInternally reloc run.weak true).map toLink)
  else do
    let symbol ← reloc.symbol
    if symbol.name ≠ [] ∧ (run.weak ∨ symbol.bind ≠ .bindWeak) then
      match run.resolveExternally reloc.symbol run.weak with
      | none => return none
      | some (cls, target) =>
        if reloc.addend > 0 then
          match cls with
          | .dataOffsetLink => return some (.resolved cls target reloc.addend)
          | .normalLink => return some (.resolved cls target 0)
          | _ => none
        else return some (.resolved cls target 0)
    else return none

def resolveVariableLink : Option (Option Link) :=
  match reloc.type with
  | .none => some none
  | .relative | .irelative => some ((run.resolveInternally reloc run.weak true).map toLink)
  | .tpOff64 =>
    let tls := m.dataRegionList.tls.isSome && !(reloc.symbol.any fun s => s.shndx = 0)
    some (some (.tlsDataOffset tls reloc.symbol reloc.addend))
  | .dtpMod64 | .dtpOff64 => some none
  | .copy => some none
  | .globDat => resolveSlot run reloc
  | .jumpSlot =>
    if reloc.addend ≠ 0 then reloc.symbol.map fun symbol => some (.externalSymbol symbol reloc.addend)
    else resolveSlot run reloc
  | .abs64 =>
    match run.resolveInternally reloc run.weak false with
    | some l => some (some (toLink l))
    | none => reloc.symbol.map fun symbol => some (.externalSymbol symbol reloc.addend)
  | .other _ => resolveOther run reloc

end Resolve

/-- Only a copy relocation is given its destination here. -/
def finalizeDataVariable (reloc : Reloc) (var : DataVariable) : Option DataVariable :=
  if reloc.type = .copy then do
    let symbol ← reloc.symbol
    return { var with isCopy := true, dest := some (.copyReloc symbol), size := symbol.size.toNat }
  else some var

/-- The body of both loops: a variable without destination is found again, but its link is not set. -/
def handleReloc (run : Run) (m : Module) (sec : SectionId) (vars : Variables) (reloc : Reloc) : Option Variables := do
  let a := reloc.address + m.baseAddress
  match findVariable vars sec a with
  | some oldVar =>
    if oldVar.dest.isSome then return vars
    let _ ← resolveVariableLink run m reloc
    let var ← finalizeDataVariable reloc oldVar
    return updateVariable sec a (fun _ => var) vars
  | none =>
    let link ← resolveVariableLink run m reloc
    if !m.dataRegionList.contains sec a then none
    let var ← finalizeDataVariable reloc ⟨sec, a, link, 8, reloc.symbol, false⟩
    return vars ++ [var]

/-! ## The sections -/

/-- Relocations with the section that their variable goes to. -/
abbrev Jobs := List (SectionId × Reloc)

/-- All relocations of the section go where the first one does. -/
def resolveSpecificRelocSection (m : Module) (relocSection : RelocSection) : Option Jobs := do
  let first ← relocSection.relocs.head?
  let sec ← m.dataRegionList.findDataSectionContaining (first.address + m.baseAddress)
  return relocSection.relocs.map fun reloc => (sec, reloc)

def resolveGeneralRelocSection (m : Module) (relocSection : RelocSection) : Option Jobs :=
  relocSection.relocs.mapM fun reloc => do
    let sec ← m.dataRegionList.findDataSectionContaining (reloc.address + m.baseAddress)
    return (sec, reloc)

def skippedNames : List String :=
  ["__kcrctab", ".rela__kcrctab", "__kcrctab_gpl", ".rela__kcrctab_gpl", ".data..percpu", ".rela.data..percpu"]

def jobsOfSection (m : Module) (sec : ElfSection) : Option Jobs :=
  match sec.relocSection with
  | none => some []
  | some relocSection =>
    if relocSection.infoLink ≠ 0 then do
      let source ← m.sections[relocSection.infoLink]?
      if source.name ∈ skippedNames ∨ source.execInstr then return []
      resolveSpecificRelocSection m relocSection
    else resolveGeneralRelocSection m relocSection

def jobs (m : Module) : Option Jobs := (m.sections.mapM (jobsOfSection m)).map List.flatten

def visit (m : Module) (vars : Variables) (run : Run) : Option Variables := do
  (← jobs m).foldlM (fun vars job => handleReloc run m job.1 vars job.2) vars

end Egalito.HandleDataRelocs
