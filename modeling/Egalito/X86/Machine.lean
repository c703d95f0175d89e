import Egalito.Lib.Memory
import Mathlib
/-!
# The machine

16 registers of 64 bits with their hardware numbers, a memory of bytes and the
flags, and what the instructions do that passes give to
`Disassemble::instruction` as bytes.
-/

namespace Egalito.X86

open Lib

abbrev Register := Fin 16

abbrev Word := BitVec 64

abbrev Memory := Word → BitVec 8

local instance neZero_sixteen : NeZero 16 := ⟨by decide⟩

def rax : Register := 0
def rcx : Register := 1
def rdx : Register := 2
def rbx : Register := 3
def rsp : Register := 4
def rbp : Register := 5
def rsi : Register := 6
def rdi : Register := 7
def r8 : Register := 8
def r9 : Register := 9
def r10 : Register := 10
def r11 : Register := 11
def r12 : Register := 12
def r13 : Register := 13
def r14 : Register := 14
def r15 : Register := 15

def Memory.load (m : Memory) (a : Word) : Word := readWord 8 m a

def Memory.store (m : Memory) (a v : Word) : Memory := writeWord (n := 8) m a v

structure Flags where
  carry : Bool
  parity : Bool
  auxiliary : Bool
  zero : Bool
  sign : Bool
  direction : Bool
  overflow : Bool
deriving DecidableEq, Repr

/-- The image that `pushfq` stores. -/
def Flags.toWord (f : Flags) : Word :=
  BitVec.ofNat 64 (f.carry.toNat + 2 + 4 * f.parity.toNat + 16 * f.auxiliary.toNat + 64 * f.zero.toNat +
    128 * f.sign.toNat + 1024 * f.direction.toNat + 2048 * f.overflow.toNat)

def Flags.ofWord (v : Word) : Flags :=
  ⟨v.getLsbD 0, v.getLsbD 2, v.getLsbD 4, v.getLsbD 6, v.getLsbD 7, v.getLsbD 10, v.getLsbD 11⟩

@[simp]
theorem Flags.ofWord_toWord (f : Flags) : ofWord f.toWord = f := by
  obtain ⟨a, b, c, d, e, f, g⟩ := f
  revert a b c d e f g
  decide

/-- The flags of a logical operation; the auxiliary carry is undefined. -/
def logicFlags (v : Word) (f : Flags) : Flags where
  carry := false
  parity := (List.range 8).countP (v.getLsbD ·) % 2 = 0
  auxiliary := false
  zero := v = 0
  sign := v.msb
  direction := f.direction
  overflow := false

structure Machine where
  regs : Register → Word
  mem : Memory
  flags : Flags

/-- `disp(base,index,scale)` -/
structure Operand where
  base : Option Register
  index : Option Register
  scale : Nat
  disp : Word
deriving DecidableEq, Repr

def Operand.address (o : Operand) (regs : Register → Word) : Word :=
  (o.base.elim 0 regs) + (o.index.elim 0 fun i => regs i * BitVec.ofNat 64 o.scale) + o.disp

inductive Instr
  | push (r : Register)
  | pop (r : Register)
  | pushFlags
  | popFlags
  | lea (dst : Register) (src : Operand)
  | load (dst : Register) (src : Operand)
  | store (dst : Operand) (src : Register)
  | move (dst src : Register)
  | and (dst : Register) (imm : Word)
  | test (a b : Register)
  | nop
  | pause
deriving DecidableEq, Repr

namespace Machine

variable (m : Machine) (r : Register) (v : Word)

def set : Machine := { m with regs := Function.update m.regs r v }

def pushWord : Machine := { m.set rsp (m.regs rsp - 8) with mem := m.mem.store (m.regs rsp - 8) v }

/-- The word on top of the stack is taken off. -/
def dropWord : Machine := m.set rsp (m.regs rsp + 8)

def top : Word := m.mem.load (m.regs rsp)

end Machine

def Instr.exec (m : Machine) : Instr → Machine
  | push r => m.pushWord (m.regs r)
  | pop r => m.dropWord.set r m.top
  | pushFlags => m.pushWord m.flags.toWord
  | popFlags => { m.dropWord with flags := Flags.ofWord m.top }
  | lea dst src => m.set dst (src.address m.regs)
  | load dst src => m.set dst (m.mem.load (src.address m.regs))
  | store dst src => { m with mem := m.mem.store (dst.address m.regs) (m.regs src) }
  | move dst src => m.set dst (m.regs src)
  | and dst imm => { m.set dst (m.regs dst &&& imm) with flags := logicFlags (m.regs dst &&& imm) m.flags }
  | test a b => { m with flags := logicFlags (m.regs a &&& m.regs b) m.flags }
  | nop => m
  | pause => m

/-! ## Encodings -/

structure Rex where
  w : Bool
  r : Bool
  x : Bool
  b : Bool
deriving DecidableEq, Repr

def Rex.ofByte (byte : UInt8) : Rex := ⟨byte &&& 8 ≠ 0, byte &&& 4 ≠ 0, byte &&& 2 ≠ 0, byte &&& 1 ≠ 0⟩

/-- Three bits of an encoding, and the bit of the prefix that goes with them. -/
def registerOf (high : Bool) (low : UInt8) : Register := Fin.ofNat 16 (low.toNat % 8 + if high then 8 else 0)

def imm8 (b : UInt8) : Word := b.toBitVec.signExtend 64

def imm32 (b₀ b₁ b₂ b₃ : UInt8) : Word :=
  (b₃.toBitVec ++ b₂.toBitVec ++ b₁.toBitVec ++ b₀.toBitVec : BitVec 32).signExtend 64

inductive RegOrMem
  | reg (r : Register)
  | mem (o : Operand)
deriving DecidableEq, Repr

def decodeDisp (mod : UInt8) : List UInt8 → Option Word
  | [] => if mod = 0 then some 0 else none
  | [d] => if mod = 1 then some (imm8 d) else none
  | [d₀, d₁, d₂, d₃] => if mod = 2 then some (imm32 d₀ d₁ d₂ d₃) else none
  | _ => none

/-- The ModRM byte and what follows it; addresses relative to the instruction pointer are left out. -/
def decodeModRM (rex : Rex) : List UInt8 → Option (Register × RegOrMem)
  | [] => none
  | modrm :: rest =>
    let mod := modrm >>> 6
    let reg := registerOf rex.r (modrm >>> 3)
    if mod = 3 then
      if rest = [] then some (reg, .reg (registerOf rex.b modrm)) else none
    else if modrm &&& 7 = 4 then
      match rest with
      | [] => none
      | sib :: rest =>
        let number := registerOf rex.x (sib >>> 3)
        let index := if number = rsp then none else some number
        let scale := 2 ^ (sib >>> 6).toNat
        if sib &&& 7 = 5 ∧ mod = 0 then (decodeDisp 2 rest).map fun disp => (reg, .mem ⟨none, index, scale, disp⟩)
        else (decodeDisp mod rest).map fun disp => (reg, .mem ⟨some (registerOf rex.b sib), index, scale, disp⟩)
    else if modrm &&& 7 = 5 ∧ mod = 0 then none
    else (decodeDisp mod rest).map fun disp => (reg, .mem ⟨some (registerOf rex.b modrm), none, 1, disp⟩)

def loadOf : Register × RegOrMem → Instr
  | (dst, .reg src) => .move dst src
  | (dst, .mem src) => .load dst src

def storeOf : Register × RegOrMem → Instr
  | (src, .reg dst) => .move dst src
  | (src, .mem dst) => .store dst src

def leaOf : Register × RegOrMem → Option Instr
  | (_, .reg _) => none
  | (dst, .mem src) => some (.lea dst src)

def testOf : Register × RegOrMem → Option Instr
  | (b, .reg a) => some (.test a b)
  | (_, .mem _) => none

def decodeByte (rex : Rex) (op : UInt8) : Option Instr :=
  if op = 0x90 ∧ rex.b = false then some .nop
  else if op = 0x9c then some .pushFlags
  else if op = 0x9d then some .popFlags
  else if op &&& 0xf8 = 0x50 then some (.push (registerOf rex.b op))
  else if op &&& 0xf8 = 0x58 then some (.pop (registerOf rex.b op))
  else none

def decodeOp (rex : Rex) : List UInt8 → Option Instr
  | [] => none
  | [op] => decodeByte rex op
  | op :: rest =>
    if rex.w = false then none
    else if op = 0x8b then (decodeModRM rex rest).map loadOf
    else if op = 0x89 then (decodeModRM rex rest).map storeOf
    else if op = 0x8d then (decodeModRM rex rest).bind leaOf
    else if op = 0x85 then (decodeModRM rex rest).bind testOf
    else match op, rest with
      | 0x83, [modrm, i] => if modrm &&& 0xf8 = 0xe0 then some (.and (registerOf rex.b modrm) (imm8 i)) else none
      | _, _ => none

/-- As far as the passes use the encodings. -/
def decode : List UInt8 → Option Instr
  | [] => none
  | [0xf3, 0x90] => some .pause
  | byte :: rest =>
    if byte &&& 0xf0 = 0x40 then decodeOp (Rex.ofByte byte) rest else decodeOp (Rex.ofByte 0) (byte :: rest)

end Egalito.X86
