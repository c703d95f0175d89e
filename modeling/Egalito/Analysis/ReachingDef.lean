import Mathlib.Tactic
/-!
# Reaching definitions

`analysis/reachingdef.cpp` on x86-64: what each instruction of a block has to
stay behind. An instruction is given by its place in the block. A failed
assertion stops the program.
-/

namespace Egalito.Analysis.ReachingDef

/-- `convertToPhysical` knows the general purpose registers, in all their widths. -/
inductive Register
  | physical (n : Fin 16) | rip | other
  deriving DecidableEq, Repr

/-- No register where capstone has `X86_REG_INVALID`. -/
structure Mem where
  base : Option Register
  index : Option Register
  deriving DecidableEq, Repr

inductive Operand
  | reg (r : Register) | imm | mem (m : Mem)
  deriving DecidableEq, Repr

/-- The instructions with a handler; `other` also stands for an instruction without assembly. -/
inductive Mnemonic
  | and | add | cmp | lea | mov | movabs | movsxd | movzx | push | pop | sub | xor | other
  deriving DecidableEq, Repr

/-- The operands stand in the order of AT&T syntax, the target last. -/
structure Instruction where
  mnemonic : Mnemonic
  operands : List Operand
  deriving DecidableEq, Repr

/-- The keys of the two maps: the registers, the flags and the memory. -/
inductive Location
  | reg (n : Fin 16) | flags | memory
  deriving DecidableEq, Repr

def sp : Location := .reg 4

/-- The calls of `setRegRead` and `setRegWrite`. -/
inductive Access
  | read (l : Location) | write (l : Location)
  deriving DecidableEq, Repr

inductive Effect
  | barrier | accesses (list : List Access)
  deriving DecidableEq, Repr

/-! ## The handlers -/

def convertToPhysical : Register → Option (Fin 16)
  | .physical n => some n
  | _ => none

def getReg (r : Register) : Option Location := (convertToPhysical r).map .reg

def handleMem (m : Mem) : Option (List Access) := do
  let index ← match m.index with
    | none => some []
    | some r => (getReg r).map fun l => [.read l]
  let base ← match m.base with
    | none | some .rip => some []
    | some r => (getReg r).map fun l => [.read l]
  return index ++ base

def fillAddOrSub : List Operand → Option Effect
  | [.imm, .reg r] => do
    let reg1 ← getReg r
    return .accesses [.read reg1, .write reg1, .write .flags]
  | [.reg r₀, .reg r₁] => do
    let reg0 ← getReg r₀
    let reg1 ← getReg r₁
    return .accesses [.read reg0, .read reg1, .write reg1, .write .flags]
  | [.mem m, .reg r] => do
    let mem ← handleMem m
    let reg1 ← getReg r
    return .accesses (mem ++ [.read .memory, .read reg1, .write reg1, .write .flags])
  | _ => some .barrier

def fillAnd : List Operand → Option Effect
  | [.imm, .reg r] => do
    let reg1 ← getReg r
    return .accesses [.read reg1, .write reg1, .write .flags]
  | _ => some .barrier

def fillCmp : List Operand → Option Effect
  | [.reg r₀, .reg r₁] => do
    let reg0 ← getReg r₀
    let reg1 ← getReg r₁
    return .accesses [.read reg0, .read reg1, .write .flags]
  | [.imm, .reg r] => do
    let reg1 ← getReg r
    return .accesses [.read reg1, .write .flags]
  | [.imm, .mem m] => do
    let mem ← handleMem m
    return .accesses (mem ++ [.read .memory, .write .flags])
  | _ => some .barrier

def fillLea : List Operand → Option Effect
  | [.mem m, .reg r] => do
    let mem ← handleMem m
    let reg1 ← getReg r
    return .accesses (mem ++ [.write reg1])
  | _ => some .barrier

def fillMov : List Operand → Option Effect
  | [.imm, .reg r] => do
    let reg1 ← getReg r
    return .accesses [.write reg1]
  | [.reg r, .mem m] => do
    let reg0 ← getReg r
    let mem ← handleMem m
    return .accesses ([.read reg0] ++ mem ++ [.write .memory])
  | [.mem m, .reg r] => do
    let mem ← handleMem m
    let reg1 ← getReg r
    return .accesses (mem ++ [.read .memory, .write reg1])
  | [.reg r₀, .reg r₁] => do
    let reg0 ← getReg r₀
    let reg1 ← getReg r₁
    return .accesses [.read reg0, .write reg1]
  | _ => some .barrier

/-- It asserts that there is only one mode. -/
def fillMovabs : List Operand → Option Effect
  | [.imm, .reg r] => do
    let reg1 ← getReg r
    return .accesses [.write reg1]
  | _ => none

def fillPush : List Operand → Option Effect
  | [.reg r] => do
    let reg0 ← getReg r
    return .accesses [.read reg0, .write .memory, .read sp, .write sp]
  | [.mem m] => do
    let mem ← handleMem m
    return .accesses (mem ++ [.write .memory, .read sp, .write sp])
  | _ => some .barrier

/-- The memory that a `pop` can write is only read here. -/
def fillPop : List Operand → Option Effect
  | [.reg r] => do
    let reg0 ← getReg r
    return .accesses [.write reg0, .read .memory, .read sp, .write sp]
  | [.mem m] => do
    let mem ← handleMem m
    return .accesses (mem ++ [.read .memory, .read sp, .write sp])
  | _ => some .barrier

def handler (instr : Instruction) : Option Effect :=
  match instr.mnemonic with
  | .and => fillAnd instr.operands
  | .add | .sub | .xor => fillAddOrSub instr.operands
  | .cmp => fillCmp instr.operands
  | .lea => fillLea instr.operands
  | .mov | .movsxd | .movzx => fillMov instr.operands
  | .movabs => fillMovabs instr.operands
  | .push => fillPush instr.operands
  | .pop => fillPop instr.operands
  | .other => some .barrier

/-! ## The analysis -/

/-- The sets are lists without repetition. -/
structure State where
  killMap : Nat → List Nat
  currentWriteMap : Location → Option Nat
  currentReadMap : Location → List Nat

def State.new : State := ⟨fun _ => [], fun _ => none, fun _ => []⟩

def setRegRead (s : State) (l : Location) (i : Nat) : State :=
  let kills := match s.currentWriteMap l with
    | some w => if w ≠ i then (s.killMap i).insert w else s.killMap i
    | none => s.killMap i
  { s with
    killMap := Function.update s.killMap i kills
    currentReadMap := Function.update s.currentReadMap l ((s.currentReadMap l).insert i) }

def insertWrite (kills : List Nat) : Option Nat → List Nat
  | some w => kills.insert w
  | none => kills

def setRegWrite (s : State) (l : Location) (i : Nat) : Option State :=
  let kills := insertWrite (s.killMap i) (s.currentWriteMap l)
  let loop := i ∈ s.currentReadMap l
  let kills := kills ∪ (s.currentReadMap l).erase i
  if i ∈ kills then none
  else some
    { killMap := Function.update s.killMap i kills
      currentWriteMap := Function.update s.currentWriteMap l (some i)
      currentReadMap := Function.update s.currentReadMap l (if loop then [i] else []) }

def setBarrier (s : State) (i : Nat) : State :=
  { s with
    killMap := Function.update s.killMap i (s.killMap i ∪ List.range i)
    currentWriteMap := fun _ => some i }

def access (i : Nat) (s : State) : Access → Option State
  | .read l => some (setRegRead s l i)
  | .write l => setRegWrite s l i

def perform (s : State) (i : Nat) : Effect → Option State
  | .barrier => some (setBarrier s i)
  | .accesses list => list.foldlM (access i) s

def analyze (block : List Instruction) : Option State :=
  block.zipIdx.foldlM (fun s (instr, i) => handler instr >>= perform s i) .new

/-! ## The closure -/

/-- The loop of `inKillClosure`; the fuel is enough for `source` as below. -/
def closureLoop (killMap : Nat → List Nat) (dest : Nat) : Nat → List Nat → List Nat → Bool
  | fuel + 1, i :: queue, visited =>
    if dest ∈ killMap i then true
    else closureLoop killMap dest fuel (queue ++ (killMap i).filter (· ∉ i :: visited)) (i :: visited)
  | _, _, _ => false

def inKillClosure (killMap : Nat → List Nat) (source dest : Nat) : Bool :=
  closureLoop killMap dest (2 ^ source) [source] [source]

def bothPushesOrPops (one two : Instruction) : Bool :=
  (one.mnemonic = .push ∨ one.mnemonic = .pop) ∧ one.mnemonic = two.mnemonic

def computeDependencyClosure (block : List Instruction) (killMap : Nat → List Nat) (allowPushReordering : Bool)
    (source : Nat) : List Nat :=
  (List.range block.length).filter fun dest =>
    !(allowPushReordering && (match block[source]?, block[dest]? with
      | some one, some two => bothPushesOrPops one two
      | _, _ => false)) && inKillClosure killMap source dest

/-- With the closure, the direct dependencies are all. -/
def areDependenciesCovered (closure : Nat → List Nat) (covered : List Nat) (i : Nat) : Bool :=
  (closure i).all (· ∈ covered)

/-- The callback chooses by number from the group. -/
def visitInstructionGroups (closure : Nat → List Nat) : Nat → List Nat → List Nat → (Nat → Nat) → Option (List Nat)
  | 0, _, _, _ => none
  | fuel + 1, available, visited, choices =>
    match available.filter (areDependenciesCovered closure visited) with
    | [] => if available = [] then some [] else none
    | first :: rest =>
      let chosen := (first :: rest).getD (choices 0 % (rest.length + 1)) first
      (visitInstructionGroups closure fuel (available.erase chosen) (chosen :: visited) fun n => choices (n + 1)).map
        (chosen :: ·)

end Egalito.Analysis.ReachingDef
