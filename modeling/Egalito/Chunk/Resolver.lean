import Egalito.Chunk.ChunkFind
import Egalito.Disasm.MakeSemantic
import Egalito.Elf.SymbolAlias
/-!
# Resolving addresses to links

`PerfectLinkResolver::resolveInternally` of `chunk/resolver.cpp`, with the links of
`chunk/link.cpp`, `chunk/dataregion.cpp` and `chunk/marker.cpp` that it tries in
turn, and `LinkedInstruction::makeLinked` for x86-64. Functions that may abort have
`none` for that, and `some none` for a null pointer.
-/

open Egalito.Lib Egalito.ChunkList Egalito.ChunkFind

namespace Egalito.Resolver

/-! ## The module -/

inductive DataSectionType
  | unknown | bss | data | code | initArray | finiArray | dynamic
deriving DecidableEq

structure DataSection where
  address : UInt64
  size : UInt64
  type : DataSectionType

instance : SizedChild DataSection where
  getName _ := ""
  getAddress s := s.address
  getSize s := s.size

def DataSection.isCode (s : DataSection) : Bool := s.type = .code

structure DataRegion where
  address : UInt64
  size : UInt64
  executable : Bool
  children : List DataSection

instance : SizedChild DataRegion where
  getName _ := ""
  getAddress r := r.address
  getSize r := r.size

def DataRegion.findDataSectionContaining (region : DataRegion) (address : UInt64) : Option DataSection :=
  region.children.find? fun ds => (getRange ds).contains address.toBitVec

structure TLSDataRegion extends DataRegion where
  sizeOfInitializedData : UInt64

def TLSDataRegion.containsData (tls : TLSDataRegion) (address : UInt64) : Bool :=
  Range.contains ⟨tls.address.toBitVec, tls.sizeOfInitializedData.toBitVec⟩ address.toBitVec

/-- `children` are the regions without the TLS region. -/
structure DataRegionList where
  children : List DataRegion
  tls : Option TLSDataRegion

def DataRegionList.findNonTLSRegionContaining (list : DataRegionList) (target : UInt64) : Option DataRegion :=
  list.children.find? fun region => (getRange region).contains target.toBitVec

def DataRegionList.findRegionContaining (list : DataRegionList) (target : UInt64) : Option DataRegion :=
  match list.tls with
  | some tls => if tls.containsData target then some tls.toDataRegion else list.findNonTLSRegionContaining target
  | none => list.findNonTLSRegionContaining target

/-- A symbol as a relocation and a symbol list give it. -/
structure Symbol where
  address : UInt64
  name : String
  version : Option String
  type : Elf.SymbolType
  bind : Elf.BindingType
  sectionIndex : Nat

/-- `aliasFor` of an entry is resolved. -/
structure SymbolEntry where
  name : String
  symbol : Symbol

abbrev SymbolList := List SymbolEntry

/-- The map keeps the first symbol of a name. -/
def SymbolList.find (list : SymbolList) (name : String) : Option Symbol :=
  (List.find? (fun entry => entry.name = name) list).map (·.symbol)

/-- No function reaches into the last 16 bytes of the address space. -/
structure Module where
  baseAddress : UInt64
  functionList : List Function
  aliasMap : String → Option Function
  pltList : Option (List PLTTrampoline)
  dataRegionList : DataRegionList
  symbolList : Option SymbolList
  dynamicSymbolList : Option SymbolList
  isExecutable : Bool
  hasRelocations : Bool
  limit : ∀ f ∈ functionList, f.address.toNat + f.size.toNat + 16 ≤ 2 ^ 64

/-! ## Links -/

/-- A marker in a section may have none: the section is a pointer. -/
inductive Marker
  | general (base : UInt64) (addend : UInt64)
  | sectionEnd (dataSection : Option DataSection)

def Marker.getAddress : Marker → Option UInt64
  | general base addend => some (base + addend)
  | sectionEnd dataSection => dataSection.map fun s => s.address + s.size

/-- A normal link to a null pointer has none as its target. -/
inductive Link
  | normal (target : Option Chunk)
  | absoluteNormal (target : Option Chunk)
  | dataOffset (dataSection : DataSection) (target addend : UInt64)
  | absoluteData (dataSection : DataSection) (target addend : UInt64)
  | marker (marker : Marker)
  | absoluteMarker (marker : Marker)
  | unresolved (target : UInt64)
  | immAndDisp (immLink dispLink : Link)

/-- `none` where a null pointer is followed or the link throws. -/
def Link.getTargetAddress : Link → Option UInt64
  | normal target => target.map Chunk.getAddress
  | absoluteNormal target => target.map Chunk.getAddress
  | dataOffset dataSection target addend => some (dataSection.address + target + addend)
  | absoluteData dataSection target addend => some (dataSection.address + target + addend)
  | marker m => m.getAddress
  | absoluteMarker m => m.getAddress
  | unresolved target => some target
  | immAndDisp _ _ => none

def makeNormalLink (target : Option Chunk) (isRelative : Bool) : Link :=
  if isRelative then .normal target else .absoluteNormal target

def DataRegionList.createDataLink (list : DataRegionList) (target : UInt64) (isRelative : Bool) : Option Link := do
  let region ← list.findRegionContaining target
  let dsec ← spatialContaining region.children target
  let base := dsec.address
  return if isRelative then .dataOffset dsec (target - base) 0 else .absoluteData dsec (target - base) 0

/-! ## Markers -/

section Markers

variable (module : Module)

def makeMarkerLink (m : Marker) (isRelative : Bool) : Link :=
  if isRelative then .marker m else .absoluteMarker m

/-- `ChunkFind2::findFunctionInModule`: the named list has the last function of a name. -/
def Module.findFunctionInModule (name : String) : Option Function :=
  match module.functionList.reverse.find? (·.name = name) with
  | some func => some func
  | none => module.aliasMap name

def Module.createMarkerLink (symbol : Option Symbol) (addend : UInt64) (isRelative : Bool) : Option (Option Link) :=
  match symbol with
  | none => some none
  | some symbol =>
    if symbol.sectionIndex = 0 then none
    else if symbol.type = .tls then some none
    else if symbol.type = .sectionType then do
      let address := symbol.address
      let region ← module.dataRegionList.findRegionContaining address
      let dsec := region.findDataSectionContaining address
      if address + addend = region.address then none
      else if address + addend = region.address + region.size then
        return some (makeMarkerLink (.sectionEnd dsec) isRelative)
      else
        let dsec ← dsec
        let addend := addend + (symbol.address - dsec.address)
        return some (makeMarkerLink (.general dsec.address addend) isRelative)
    else
      match module.findFunctionInModule symbol.name with
      | some b => some (some (makeMarkerLink (.general b.address addend) isRelative))
      | none => some none

/-- The last section that does not begin behind the address, of those in front of the first that does. -/
def lastBefore (address : UInt64) (children : List DataSection) : Option DataSection :=
  (children.takeWhile fun dsec => ¬ address < dsec.address).getLast?

def Module.createInferredMarkerLink (address : UInt64) (isRelative : Bool) : Option (Option Link) :=
  let region := module.dataRegionList.findRegionContaining address
  if (region.bind (·.findDataSectionContaining address)).isSome then none
  else
    match region.or (module.dataRegionList.findRegionContaining (address - 1)) with
    | none => some none
    | some region =>
      match lastBefore address region.children with
      | none => some none
      | some base =>
        let addend := address - base.address
        some (some (makeMarkerLink (.general base.address addend) isRelative))

end Markers

/-! ## Functions with padding -/

section Expansion

/-- The sizes of the instructions that `appendNop` makes. -/
def nopSizes : Nat → Nat → List Nat
  | 0, _ => []
  | rounds + 1, size =>
    let nextSize := if size > 11 then 11 else size
    let size := size - nextSize
    nextSize :: if size > 0 then nopSizes rounds size else []

def layOut (address : UInt64) : List Nat → List Instruction
  | [] => []
  | size :: sizes => ⟨address, UInt64.ofNat size⟩ :: layOut (address + UInt64.ofNat size) sizes

theorem sum_nopSizes {rounds size : Nat} (h : size ≤ rounds) : (nopSizes rounds size).sum = size := by
  induction rounds generalizing size with
  | zero =>
    rw [Nat.le_zero.1 h]
    rfl
  | succ rounds ih =>
    rw [nopSizes, List.sum_cons]
    by_cases hsize : size > 11
    · rw [if_pos hsize, if_pos (by omega), ih (by omega)]
      omega
    · rw [if_neg hsize, if_neg (by omega)]
      simp

theorem layOut_fill {address : UInt64} {sizes : List Nat} (h : address.toNat + sizes.sum < 2 ^ 64) :
    Consecutive start extent address.toNat (layOut address sizes) ∧
      ((layOut address sizes).map extent).sum = sizes.sum := by
  induction sizes generalizing address with
  | nil => exact ⟨trivial, rfl⟩
  | cons size sizes ih =>
    rw [List.sum_cons] at h
    have hsize : (UInt64.ofNat size).toNat = size := by
      rw [UInt64.toNat_ofNat', Nat.mod_eq_of_lt (by omega)]
    have hadd : (address + UInt64.ofNat size).toNat = address.toNat + size := by
      rw [UInt64.toNat_add, hsize, Nat.mod_eq_of_lt (by omega)]
    obtain ⟨hcons, hsum⟩ := ih (by rw [hadd]; omega)
    rw [hadd] at hcons
    refine ⟨⟨rfl, ?_⟩, ?_⟩
    · change Consecutive _ _ (address.toNat + (UInt64.ofNat size).toNat) _
      rwa [hsize]
    · rw [layOut, List.map_cons, List.sum_cons, List.sum_cons, hsum]
      exact congrArg (· + _) hsize

/-- The address behind the function. -/
def endAddress (f : Function) : UInt64 := f.address + f.size

theorem toNat_endAddress (f : Function) : (endAddress f).toNat = f.address.toNat + f.size.toNat := by
  rw [endAddress, UInt64.toNat_add, Nat.mod_eq_of_lt f.end_lt]

def nopBlock (address size : UInt64) (h : address.toNat + size.toNat < 2 ^ 64) : Block where
  address := address
  size := size
  children := layOut address (nopSizes size.toNat size.toNat)
  fill := by
    have hsum := sum_nopSizes (le_refl size.toNat)
    obtain ⟨hcons, heq⟩ := @layOut_fill address (nopSizes size.toNat size.toNat) (by rwa [hsum])
    exact ⟨hcons, heq.trans hsum⟩

/-- `none` for the instruction of no bytes, and for a size below 0, which no block can have. -/
def appendNop (f : Function) (size : UInt64) : Option Function :=
  if h : 0 < size.toNat ∧ (endAddress f).toNat + size.toNat < 2 ^ 64 then
    some {
      name := f.name
      address := f.address
      size := f.size + size
      children := f.children ++ [nopBlock (endAddress f) size h.2]
      fill := by
        have hend := toNat_endAddress f
        obtain ⟨hcons, hsum⟩ := f.fill
        refine ⟨consecutive_append.2 ⟨hcons, ?_, trivial⟩, ?_⟩
        · rw [hsum]
          exact hend
        · rw [List.map_append, List.sum_append, hsum, UInt64.toNat_add, Nat.mod_eq_of_lt (by omega)]
          exact congrArg (f.size.toNat + ·) (Nat.add_zero size.toNat)
      end_lt := by
        have hend := toNat_endAddress f
        rw [UInt64.toNat_add, Nat.mod_eq_of_lt (by omega)]
        omega }
  else none

variable (module : Module) (address : UInt64)

/-- A section of an executable region has the address, and is not code. -/
def Module.isDataInCode : Bool :=
  match module.dataRegionList.findRegionContaining address with
  | none => false
  | some region => region.executable &&
    match region.findDataSectionContaining address with
    | none => false
    | some dataSection => !dataSection.isCode

/-- The function closest in front of the address, for functions aligned to 16 bytes or less. -/
def Module.findBefore : Option Function :=
  (List.range' 1 15).findSome? fun i => spatialContaining module.functionList (address - UInt64.ofNat i)

def Module.getFunctionWithExpansion : Option (Option Function) :=
  match spatialContaining module.functionList address with
  | some func => some (some func)
  | none =>
    if module.isDataInCode address then some none
    else
      match module.findBefore address with
      | some func => (appendNop func (address - (func.address + func.size - 1))).map some
      | none => some none

end Expansion

/-! ## Relocations -/

/-- The types that the resolver tells apart, by their numbers in `elf.h`. -/
def typePC32 : UInt32 := 2

def typeGlobDat : UInt32 := 6

def typeGOTPC32 : UInt32 := 26

/-- `R_X86_64_NUM` -/
def typeNum : UInt32 := 43

/-- The types that an assertion excludes: `PC64`, `GOTPCREL64`, `GOTPC64`, `PLTOFF64`, `GOTPCREL`, `GOTPCRELX`,
`REX_GOTPCRELX`, `PC16` and `PC8`. -/
def excludedTypes : List UInt32 := [24, 28, 29, 31, 9, 41, 42, 13, 15]

structure Reloc where
  address : UInt64
  type : UInt32
  symbol : Option Symbol
  addend : UInt64

section Resolve

/-- By the name, or the name with a version. -/
def SymbolList.findVersioned (list : SymbolList) (symbol : Symbol) : Option Symbol :=
  (list.find symbol.name).or (symbol.version.bind fun version =>
    (list.find (symbol.name ++ "@" ++ version)).or (list.find (symbol.name ++ "@@" ++ version)))

/-- `redirectCopyRelocs` with one list of the main module. -/
def redirectWith (main : Module) (symbol : Symbol) (isRelative : Bool) (list : SymbolList) : Option Link := do
  let s ← list.findVersioned symbol
  main.dataRegionList.createDataLink (main.baseAddress + s.address) isRelative

def redirectCopyRelocs (main : Module) (symbol : Symbol) (isRelative : Bool) : Option Link :=
  (main.symbolList.bind (redirectWith main symbol isRelative)).or
    (main.dynamicSymbolList.bind (redirectWith main symbol isRelative))

variable (main : Option Module) (module : Module)

/-- What `resolveInternally` does with the address. -/
def resolveAddress (symbol : Option Symbol) (addend addr : UInt64) (relative : Bool) : Option (Option Link) :=
  match module.getFunctionWithExpansion addr with
  | none => none
  | some (some func) =>
    if func.address = addr then some (some (makeNormalLink (some (.function func)) relative))
    else
      let inner := func.findImpl addr true
      let instruction := inner.bind Chunk.instruction?
      some (some (makeNormalLink (instruction.map .instruction) relative))
  | some none =>
    match module.dataRegionList.createDataLink addr relative with
    | some dlink => some (some dlink)
    | none => module.createMarkerLink symbol addend relative

def resolveInternally (reloc : Reloc) (weak relative : Bool) : Option (Option Link) :=
  let instr := (ChunkFind.findImpl reloc.address true module.functionList).bind Chunk.instruction?
  let addend := reloc.addend
  match reloc.symbol with
  | none => resolveAddress module none addend addend relative
  | some symbol =>
    if symbol.sectionIndex = 0 then some none
    else if ¬ weak ∧ symbol.bind = .bindWeak then some none
    else if reloc.type ∈ excludedTypes then none
    else if reloc.type = typePC32 ∨ reloc.type = typeGOTPC32 then
      match instr with
      | none => some none
      | some instr =>
        let offset := reloc.address - instr.address
        resolveAddress module symbol addend (addend + (symbol.address + instr.size - offset)) relative
    else if reloc.type = typeGlobDat then
      match main.bind fun main => redirectCopyRelocs main symbol relative with
      | some ret => some (some ret)
      | none => resolveAddress module symbol addend symbol.address relative
    else if reloc.type ≥ typeNum then resolveAddress module symbol addend symbol.address relative
    else resolveAddress module symbol addend (addend + symbol.address) relative

end Resolve

/-! ## `makeLinked` -/

inductive Register
  | invalid | rip
  | other (code : Nat)
deriving DecidableEq

inductive AsmOperand
  | reg (reg : Register)
  | imm (value : UInt64)
  | mem (base index : Register) (scale : Int) (disp : UInt64)

def AsmOperand.isRIPRelative : AsmOperand → Bool
  | mem base index scale _ => base = .rip && index = .invalid && scale = 1
  | _ => false

def AsmOperand.disp : AsmOperand → UInt64
  | mem _ _ _ disp => disp
  | _ => 0

structure Assembly where
  disasm : Serializer.Disasm
  bytes : List UInt8
  operands : List AsmOperand

/-- The index is -1 for two links. -/
structure LinkedInstruction where
  index : Option Nat
  link : Link

section MakeLinked

variable (main : Option Module) (module : Module) (instruction : Instruction) (assembly : Assembly)

/-- `makeLinked` for a relocation. An operand is looked up at the index -1 when none is found. -/
def makeLinkedReloc (reloc : Reloc) : Option (Option LinkedInstruction) := do
  let offset := reloc.address - instruction.address
  let index ← MakeSemantic.getOpIndex assembly.disasm assembly.bytes assembly.operands.length offset.toNat
  let op ← assembly.operands[index]?
  let relative := op.isRIPRelative
  let link ← resolveInternally main module reloc true relative
  return link.map fun link => ⟨some index, link⟩

/-- The address that a RIP-relative operand refers to. -/
def ripTarget (op : AsmOperand) : UInt64 := instruction.address + instruction.size + op.disp

/-- The link for a RIP-relative operand. -/
def makeDispLink (target : UInt64) : Option Link :=
  let found := ((spatialContaining module.functionList target).map Chunk.function).or
    ((module.pltList.bind fun pltList => spatialFind pltList target).map Chunk.plt)
  match found with
  | some found =>
    let found := if found.getAddress = target then some found
      else
        match found with
        | .function function => function.findImpl target true
        | found => some found
    some (.normal found)
  | none =>
    let c := (ChunkFind.findImpl target false module.functionList).bind Chunk.instruction?
    let plt := module.pltList.bind fun pltList => spatialFind pltList target
    match c, plt with
    | some c, _ => some (.normal (some (.instruction c)))
    | none, some plt => some (.normal (some (.plt plt)))
    | none, none =>
      match module.dataRegionList.createDataLink target true with
      | some dispLink => some dispLink
      | none =>
        match module.createInferredMarkerLink target true with
        | none => none
        | some (some dispLink) => some dispLink
        | some none => some (.unresolved target)

/-- The link for an immediate operand, in an executable at fixed addresses. -/
def makeImmLink (value : UInt64) : Option Link :=
  if module.isExecutable && !module.hasRelocations then
    (spatialFind module.functionList value).map fun found => .absoluteNormal (some (.function found))
  else none

/-- The links of an instruction so far, and the operands that they belong to. -/
structure Links where
  imm : Option (Nat × Link)
  disp : Option (Nat × Link)

/-- One turn of the loop over the operands. -/
def linkOperand (links : Links) (i : Nat) (op : AsmOperand) : Option Links :=
  if op.isRIPRelative then
    if links.disp.isSome then none
    else (makeDispLink module (ripTarget instruction op)).map fun dispLink => { links with disp := some (i, dispLink) }
  else
    match op with
    | .imm value =>
      match makeImmLink module value with
      | some immLink => some { links with imm := some (i, immLink) }
      | none => some links
    | _ => some links

def linkOperands : Links → Nat → List AsmOperand → Option Links
  | links, _, [] => some links
  | links, i, op :: ops => do linkOperands (← linkOperand module instruction links i op) (i + 1) ops

def makeLinked : Option (Option LinkedInstruction) := do
  let links ← linkOperands module instruction ⟨none, none⟩ 0 assembly.operands
  return match links.imm, links.disp with
    | none, none => none
    | some (_, immLink), some (_, dispLink) => some ⟨none, .immAndDisp immLink dispLink⟩
    | some (immIndex, immLink), none => some ⟨some immIndex, immLink⟩
    | none, some (dispIndex, dispLink) => some ⟨some dispIndex, dispLink⟩

end MakeLinked

end Egalito.Resolver
