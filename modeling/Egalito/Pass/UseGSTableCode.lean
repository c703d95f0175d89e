import Egalito.Pass.EndbrEnforce
import Egalito.Pass.UseGSTable
/-!
# What the new calls and jumps do

The machine with the register `%mm1`, the bytes that the new instructions get in
the layout of a function, and the run from a place in it to the jump through a
slot of the table.
-/

namespace Egalito.UseGSTable

open Lib X86 Retpoline Chunk

variable {χ I : Type}

/-! ## The machine -/

/-- With `%mm1`. -/
structure Machine extends X86.Machine where
  mm1 : Word

inductive Op
  | plain (i : Instr)
  /-- `push imm` -/
  | pushImm (imm : Word)
  /-- `movl imm,disp(%rsp)` -/
  | storeLong (disp : Word) (imm : BitVec 32)
  /-- `mov disp(%rip),%r11` -/
  | loadRelative (disp : Word)
  /-- `movq %r11,%mm1` -/
  | moveToMm1
  /-- `movd disp(%rip),%mm1` -/
  | loadMm1 (disp : Word)
  /-- `jmpq *%gs:disp` -/
  | jumpSlot (disp : Word)
  /-- `jmpq *%gs:(%r11)` -/
  | jumpSlotR11
deriving DecidableEq, Repr

def word32 (b₀ b₁ b₂ b₃ : UInt8) : BitVec 32 := b₃.toBitVec ++ b₂.toBitVec ++ b₁.toBitVec ++ b₀.toBitVec

/-- As far as the pass uses the encodings. -/
def decodeInserted : List UInt8 → Option Op
  | [0x68, b₀, b₁, b₂, b₃] => some (.pushImm (imm32 b₀ b₁ b₂ b₃))
  | [0xc7, 0x44, 0x24, d, b₀, b₁, b₂, b₃] => some (.storeLong (imm8 d) (word32 b₀ b₁ b₂ b₃))
  | [0x4c, 0x8b, 0x1d, b₀, b₁, b₂, b₃] => some (.loadRelative (imm32 b₀ b₁ b₂ b₃))
  | [0x49, 0x0f, 0x6e, 0xcb] => some .moveToMm1
  | [0x0f, 0x6e, 0x0d, b₀, b₁, b₂, b₃] => some (.loadMm1 (imm32 b₀ b₁ b₂ b₃))
  | [0x65, 0xff, 0x24, 0x25, b₀, b₁, b₂, b₃] => some (.jumpSlot (imm32 b₀ b₁ b₂ b₃))
  | [0x65, 0x41, 0xff, 0x23] => some .jumpSlotR11
  | code => (decode code).map .plain

def Condition.holds (f : Flags) : Condition → Bool
  | .o => f.overflow
  | .no => !f.overflow
  | .b => f.carry
  | .ae => !f.carry
  | .e => f.zero
  | .ne => !f.zero
  | .be => f.carry || f.zero
  | .a => !(f.carry || f.zero)
  | .s => f.sign
  | .ns => !f.sign
  | .p => f.parity
  | .np => !f.parity
  | .l => f.sign != f.overflow
  | .ge => f.sign == f.overflow
  | .le => f.zero || (f.sign != f.overflow)
  | .g => !f.zero && (f.sign == f.overflow)

theorem opposite_holds (f : Flags) (c : Condition) : c.opposite.holds f = !c.holds f := by
  obtain ⟨carry, parity, auxiliary, zero, sign, direction, overflow⟩ := f
  revert carry parity zero sign overflow
  cases c <;> simp [Condition.opposite, Condition.holds]

/-! ## Layout -/

section Layout

variable (originalSize : Semantic χ I → Nat)

/-- The sizes of what the pass does not make are given. -/
def size : Semantic χ I → Nat
  | .bytes code => code.length
  | .linked code _ => code.length
  | .conditionalJump _ _ => 6
  | s => originalSize s

def sizeOf (code : List (Instruction χ I)) : Nat := (code.map fun x => size originalSize x.2).sum

variable (code : List (Instruction χ I)) (base : Word)

/-- The address of a place, by what there is from it on. -/
def address (pos : List (Instruction χ I)) : Word :=
  base + BitVec.ofNat 64 (sizeOf originalSize code - sizeOf originalSize pos)

/-- `target->getAddress() + target->getSize() - base->getAddress()` -/
def distance (target : Nat) : Nat :=
  sizeOf originalSize (code.takeWhile (·.1 ≠ target)) +
    ((code.find? (·.1 = target)).elim 0 fun x => size originalSize x.2)

/-- `calculateDisplacement` of an instruction whose end is at `next`, cut to the field. -/
def displacement (next : Word) : NewLink → BitVec 32
  | .gsTable offset => offset.toBitVec
  | .distance target => BitVec.ofNat 32 (distance originalSize code target)
  | .data address isRIPRelative => (if isRIPRelative then address - next else address).setWidth 32

/-- The bytes of a new instruction that `rest` comes behind. -/
def emit (rest : List (Instruction χ I)) : Semantic χ I → Option (List UInt8)
  | .bytes bytes => some bytes
  | .linked bytes link =>
    some (bytes.take (bytes.length - 4) ++
      displacementBytes (displacement originalSize code (address originalSize code base rest) link))
  | _ => none

/-- The word at a distance behind the instruction pointer, which is in the next instruction: code does not change. -/
def readCode (disp : Word) : List (Instruction χ I) → Option (BitVec 32)
  | [] => none
  | (_, s) :: rest => (emit originalSize code base rest s).bind fun bytes =>
    match bytes.drop disp.toNat with
    | b₀ :: b₁ :: b₂ :: b₃ :: _ => some (word32 b₀ b₁ b₂ b₃)
    | _ => none

/-! ## Runs -/

/-- Where the run ends: with a jump through the slot of an offset, or somewhere else in the function. -/
inductive Outcome (χ I : Type)
  | slot (offset : Word) (m : Machine)
  | stays (pos : List (Instruction χ I)) (m : Machine)

/-- From a place in the code on. -/
def run : List (Instruction χ I) → Machine → Option (Outcome χ I)
  | [], _ => none
  | (_, .conditionalJump c target) :: rest, m => if c.holds m.flags then some (.stays (behind code target) m) else run rest m
  | (_, s) :: rest, m => do
    match ← decodeInserted (← emit originalSize code base rest s) with
    | .plain i => run rest { m with toMachine := i.exec m.toMachine }
    | .pushImm imm => run rest { m with toMachine := m.pushWord imm }
    | .storeLong disp imm => run rest { m with mem := writeWord (n := 4) m.mem (m.regs rsp + disp) imm }
    | .loadRelative disp =>
      run rest { m with toMachine := m.set r11 (m.mem.load (address originalSize code base rest + disp)) }
    | .moveToMm1 => run rest { m with mm1 := m.regs r11 }
    | .loadMm1 disp => run rest { m with mm1 := (← readCode originalSize code base disp rest).setWidth 64 }
    | .jumpSlot disp => some (.slot disp m)
    | .jumpSlotR11 => some (.slot (m.regs r11) m)

end Layout

/-! ## What a rewritten instruction has to do -/

inductive Source (χ : Type)
  /-- The target's own entry. -/
  | entry (target : χ)
  | operand (o : IndirectOperand)
  | data (link : DataLink χ)

inductive Transfer (χ : Type)
  | call (source : Source χ)
  | jump (source : Source χ)
  | conditionalJump (c : Condition) (target : χ)

/-- The instructions that are rewritten. -/
def Semantic.transfer : Semantic χ I → Option (Transfer χ)
  | directCall (some target) => some (.call (.entry target))
  | externalJump .jmp (some target) => some (.jump (.entry target))
  | externalJump (.conditional c) (some target) => some (.conditionalJump c target)
  | indirectCall o => some (.call (.operand o))
  | indirectJump o false => some (.jump (.operand o))
  | dataLinked true (some link) => some (.call (.data link))
  | dataLinked false (some link) => some (.jump (.data link))
  | _ => none

namespace Transfer

def isCall : Transfer χ → Bool
  | call _ => true
  | _ => false

def condition : Transfer χ → Option Condition
  | conditionalJump c _ => some c
  | _ => none

def source : Transfer χ → Source χ
  | call source => source
  | jump source => source
  | conditionalJump _ target => .entry target

end Transfer

section Does

variable [DecidableEq χ] (table : GSTable χ)

/-- The offset of the slot of a chunk. -/
def slotOffset (target : χ) : UInt32 := (table.getEntryFor target).elim 0 (·.getOffset)

/-- The value of the original operand. -/
def Source.value (m : X86.Machine) : Source χ → Word
  | entry target => (slotOffset table target).toBitVec.setWidth 64
  | operand o => o.target m
  | data link => m.mem.load link.address

/-- What a call pushes: the offset of its function below the distance to what comes behind it. -/
def returnWord (self : χ) (originalSize : Semantic χ I → Nat) (code : List (Instruction χ I)) (base : Word)
    (after : List (Instruction χ I)) : Word :=
  (address originalSize code base after - base).setWidth 32 ++ (slotOffset table self).toBitVec

/-- The flags, the memory and the registers stay, up to `%r11` and what is pushed for a call. -/
structure Kept (t : Transfer χ) (pushed : Word) (m m' : Machine) : Prop where
  flags : m'.flags = m.flags
  regs : ∀ r, r ≠ rsp → r ≠ r11 → m'.regs r = m.regs r
  rsp : m'.regs rsp = if t.isCall then m.regs rsp - 8 else m.regs rsp
  mem : m'.mem = if t.isCall then m.mem.store (m.regs X86.rsp - 8) pushed else m.mem

/-- The jump goes through the slot of the value with `%mm1` holding that; a conditional one does so exactly if its condition
holds, and otherwise nothing happens. -/
def Does (t : Transfer χ) (pushed : Word) (after : List (Instruction χ I)) (m : Machine) (out : Option (Outcome χ I)) : Prop :=
  if t.condition.all (·.holds m.flags) then
    ∃ m', out = some (.slot (t.source.value table m.toMachine) m') ∧ m'.mm1 = t.source.value table m.toMachine ∧
      Kept t pushed m m'
  else out = some (.stays after m)

/-- The displacement of the move from memory that ends at `next`; a jump with a `NormalLink` gets the offset of a slot. -/
def DataLink.displacement (isCall : Bool) (next : Word) (link : DataLink χ) : BitVec 32 :=
  match isCall, link.normal with
  | false, some target => (slotOffset table target).toBitVec
  | _, _ => (if link.isRIPRelative then link.address - next else link.address).setWidth 32

/-- The slot of a target is below 2^31; an operand is loaded from where it is, and for a call not from the word that was
pushed before. `next` is the end of the move from memory. -/
def Right (regs : Register → Word) (next : Word) (t : Transfer χ) : Prop :=
  match t.source with
  | .entry target => (slotOffset table target).toNat < 2 ^ 31
  | .operand o => if t.isCall then Retpoline.Right .jump regs o else EndbrEnforce.Right regs o
  | .data link => next + (link.displacement table t.isCall next).signExtend 64 = link.address ∧
      (t.isCall → Apart 8 8 (regs rsp - 8) link.address)

end Does

/-! ## Sites -/

section Sites

variable [DecidableEq χ]

/-- A function that can be converted. -/
structure Conversion (f : Function χ I) where
  result : Body χ I
  convert_eq : convert f = some result

/-- An instruction that is rewritten, in its function. -/
structure Site (f : Function χ I) where
  before : List (Instruction χ I)
  point : Nat
  semantic : Semantic χ I
  after : List (Instruction χ I)
  transfer : Transfer χ
  code_eq : f.code = before ++ (point, semantic) :: after
  transfer_eq : semantic.transfer = some transfer

/-- The place in the new code that stands for one in the old code: it is reached at the beginning, from an instruction above
that is not rewritten and by jumps as that was, and it is the end if that is. -/
structure At (f : Function χ I) (c : Conversion f) (before after pos : List (Instruction χ I)) : Prop where
  start : before = [] → c.result.code = pos
  fall : ∀ front x, before = front ++ [x] → x.2.transfer = none → ∃ front', c.result.code = front' ++ x :: pos
  jump : ∀ x ∈ after.head?, behind c.result.code x.1 = pos
  stop : after = [] → pos = []

end Sites

end Egalito.UseGSTable
