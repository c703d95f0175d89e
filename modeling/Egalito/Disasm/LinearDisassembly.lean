import Egalito.Elf.SymbolAlias
import Egalito.IntervalTree.Nearest
import Egalito.Lib.Pieces
import Mathlib
/-!
# Linear disassembly

`DisassembleX86Function::linearDisassembly` of `disasm/disassemble.cpp`, which
divides a code section into functions when there are no symbols: the section is
split at call targets, nops behind a function are taken off, and the functions
that are known from unwind information or dynamic symbols are cut out and added
again.
-/

open Egalito.Lib Egalito.IntervalTree

namespace Egalito.Disasm

/-! ## What is read -/

/-- The instructions that the passes tell apart. -/
inductive InsnId
  | nop | ret | other
deriving DecidableEq, Repr

inductive Operand
  | imm (value : Address) | other
deriving DecidableEq, Repr

/-- `cs_insn`; `call` is the group `X86_GRP_CALL`. -/
structure Insn where
  address : Address
  size : Address
  id : InsnId
  call : Bool
  operands : List Operand
deriving DecidableEq, Repr

/-- The bytes that the instructions take. -/
def extent (insns : List Insn) : Address := (insns.map Insn.size).sum

/-- `cs_disasm` on the bytes of a range: one instruction behind the other, up to the first byte that begins none. -/
structure Decoder where
  disasm : Range → List Insn
  address : ∀ r before ins after, disasm r = before ++ ins :: after → ins.address = r.start + extent before
  size_pos : ∀ r, ∀ ins ∈ disasm r, 0 < ins.size.toNat
  within : ∀ r, ((disasm r).map (·.size.toNat)).sum ≤ r.size.toNat

/-- What is read of the file. The arrays hold the value at each byte of the section, as they are read. -/
structure ElfMap where
  text : Range
  init : Option Range
  fini : Option Range
  initArray : List Address
  finiArray : List Address
  entryPoint : Address
  fdes : List Range
  dynamicSymbolList : Option (List Elf.Symbol)
  /-- Sections do not overlap. -/
  apart : (text :: (init.toList ++ fini.toList)).Pairwise Apart

/-! ## The first pass -/

def shouldSplitFunctionDueTo (ins : Insn) : Option Address :=
  match ins.call, ins.operands with
  | true, .imm value :: _ => some value
  | _, _ => none

structure PassState where
  splitRanges : Node
  functionPadding : Node
  nopBytes : Address

section Fuel

variable (fuel : Nat)

/-- `splitAt`, without its result. -/
def splitTree (tree : Node) (point : Address) : Option Node := (tree.splitAt fuel point).map Prod.fst

/-- `add`, without its result. -/
def addTree (tree : Node) (range : Range) : Option Node := (tree.add fuel range).map Prod.fst

def splitDueTo (tree : Node) (ins : Insn) : Option Node :=
  match shouldSplitFunctionDueTo ins with
  | some target => splitTree fuel tree target
  | none => some tree

/-- One round of the loop. -/
def passStep (s : PassState) (ins : Insn) : Option PassState := do
  let splitRanges ← splitDueTo fuel s.splitRanges ins
  if ins.id = .nop then
    return { s with splitRanges, nopBytes := s.nopBytes + ins.size }
  else if s.nopBytes ≠ 0 then
    let functionPadding ← addTree fuel s.functionPadding ⟨ins.address - s.nopBytes, s.nopBytes⟩
    return ⟨splitRanges, functionPadding, 0⟩
  else
    return { s with splitRanges }

def firstDisassemblyPass (insns : List Insn) (text : Range) (splitRanges functionPadding : Node) :
    Option (Node × Node) := do
  let s ← insns.foldlM (passStep fuel) ⟨splitRanges, functionPadding, 0⟩
  if s.nopBytes ≠ 0 then
    let functionPadding ← addTree fuel s.functionPadding ⟨text.start + text.size - s.nopBytes, s.nopBytes⟩
    return (s.splitRanges, functionPadding)
  else
    return (s.splitRanges, s.functionPadding)

/-! ## The functions at the start -/

inductive CrtMode
  | none | ret | nop
deriving DecidableEq, Repr

/-- The mode behind an instruction, and whether it begins a function. `MODE_MAYBE_FOUND` and `MODE_FOUND` last for one
instruction only. -/
def crtStep : CrtMode → Insn → CrtMode × Bool
  | .ret, ins =>
    if ins.id = .nop then (.nop, false) else (if ins.id = .ret then .ret else .none, false)
  | .nop, ins =>
    if ins.id = .nop then (.nop, false)
    -- a ret, nop and ret are not the end
    else if ins.id = .ret then (.ret, false)
    else (.none, true)
  | .none, ins => (if ins.id = .ret then .ret else .none, false)

def crtLoop (s : CrtMode × Node) (ins : Insn) : Option (CrtMode × Node) := do
  let (mode, found) := crtStep s.1 ins
  if found then return (mode, ← splitTree fuel s.2 ins.address) else return (mode, s.2)

/-- For deregister_tm_clones, register_tm_clones, __do_global_dtors_aux, and frame_dummy. -/
def disassembleCrtBeginFunctions (insns : List Insn) (splitRanges : Node) : Option Node :=
  (insns.foldlM (crtLoop fuel) (.none, splitRanges)).map Prod.snd

/-! ## The functions of a section -/

/-- The ranges of the known functions: those of the FDEs, and of dynamic symbols. -/
def ElfMap.known (elfMap : ElfMap) : List Range :=
  elfMap.fdes ++ (elfMap.dynamicSymbolList.getD []).filterMap fun symbol =>
    if symbol.type ≠ .func ∧ symbol.type ≠ .ifunc then none
    else if symbol.size = 0 then none
    else some ⟨symbol.address.toBitVec, symbol.size.toBitVec⟩

/-- The function ends in these nops, or directly behind or in front of them. -/
def endsInPadding (func bound : Range) : Bool := func.getEnd == bound.getEnd || bound.contains func.getEnd

/-- Shrink functions, removing nop padding bytes. -/
def shrink (functionPadding functionsWithoutPadding : Node) (func : Range) : Option Node :=
  match functionPadding.findLowerBoundOrOverlapping func.getEnd with
  | some bound =>
    if endsInPadding func bound then functionsWithoutPadding.addBetween fuel func.start bound.start
    else addTree fuel functionsWithoutPadding func
  | none => some functionsWithoutPadding

/-- Remove the nop padding bytes behind a known function, and the function. -/
def removeKnown (functionPadding functionsWithoutPadding : Node) (func : Range) : Option Node :=
  match functionPadding.findLowerBoundOrOverlapping func.getEnd with
  | some bound =>
    if endsInPadding func bound then functionsWithoutPadding.subtractWithAddendum fuel func bound
    else functionsWithoutPadding.subtract fuel func
  -- no nop padding bytes, just subtract function
  | none => functionsWithoutPadding.subtract fuel func

/-- The points outside the code at which the section is split. -/
def ElfMap.entries (elfMap : ElfMap) : List Address := elfMap.entryPoint :: elfMap.initArray ++ elfMap.finiArray

def crtBegin (decoder : Decoder) (entryPoint : Address) (tree : Node) : Option Node :=
  match tree.findUpperBound entryPoint with
  | some crtBeginFunction => disassembleCrtBeginFunctions fuel (decoder.disasm crtBeginFunction) tree
  | none => some tree

/-- The ranges of the functions, in the order in which they are made. -/
def linearDisassembly (decoder : Decoder) (elfMap : ElfMap) : Option (List Range) := do
  let knownFunctions ← elfMap.known.foldlM (addTree fuel) (make elfMap.text)
  let splitRanges ← addTree fuel (make elfMap.text) elfMap.text
  let splitRanges ← elfMap.entries.foldlM (splitTree fuel) splitRanges
  let (splitRanges, functionPadding) ←
    firstDisassemblyPass fuel (decoder.disasm elfMap.text) elfMap.text splitRanges (make elfMap.text)
  let functionsWithoutPadding ←
    splitRanges.inStartOrderTraversal.foldlM (shrink fuel functionPadding) (make elfMap.text)
  let functionsWithoutPadding ←
    knownFunctions.inStartOrderTraversal.foldlM (removeKnown fuel functionPadding) functionsWithoutPadding
  let functionsWithoutPadding ← functionsWithoutPadding.unionWith fuel knownFunctions
  let functionsWithoutPadding ← crtBegin fuel decoder elfMap.entryPoint functionsWithoutPadding
  -- special functions outside the section
  return functionsWithoutPadding.inStartOrderTraversal ++ (elfMap.init.toList ++ elfMap.fini.toList)

end Fuel

end Egalito.Disasm
