import Mathlib
/-!
# The code that passes insert

The byte strings that the passes give to `Disassemble::instruction`, and what
they do on a machine with 16 registers, a stack, the memory behind `%gs` and the
flags that a comparison sets. Registers have their hardware numbers.
-/

namespace Egalito.Code

abbrev Register := Fin 16

abbrev Word := BitVec 64

local instance neZero_sixteen : NeZero 16 := ⟨by decide⟩

def rsp : Register := 4
def r10 : Register := 10
def r11 : Register := 11

/-- The inserted instructions, decoded. -/
inductive Op
  | push (r : Register)
  | pop (r : Register)
  /-- `lea disp(%rsp),%rsp` -/
  | moveStack (disp : Word)
  /-- `add imm,%rsp` -/
  | addStack (imm : Word)
  /-- `sub imm,%rsp` -/
  | subStack (imm : Word)
  /-- `mov %gs:0x0,%r11` -/
  | loadPointer
  /-- `mov %r11,%gs:0x0` -/
  | storePointer
  /-- `lea disp(%r11),%r11` -/
  | movePointer (disp : Word)
  /-- `mov disp(%rsp),%r10` -/
  | loadReturn (disp : Word)
  /-- `mov %r10,%gs:(%r11)` -/
  | storeReturn
  /-- `cmp %r10,%gs:(%r11)` -/
  | compareReturn
deriving DecidableEq, Repr

def pushBytes (r : Register) : List UInt8 := if r < 8 then [0x50 + r.val.toUInt8] else [0x41, 0x50 + (r.val - 8).toUInt8]

def popBytes (r : Register) : List UInt8 := if r < 8 then [0x58 + r.val.toUInt8] else [0x41, 0x58 + (r.val - 8).toUInt8]

def imm8 (b : UInt8) : Word := b.toBitVec.signExtend 64

def imm32 (b₀ b₁ b₂ b₃ : UInt8) : Word :=
  (b₃.toBitVec ++ b₂.toBitVec ++ b₁.toBitVec ++ b₀.toBitVec : BitVec 32).signExtend 64

/-- `push` is `50` to `57`, `pop` is `58` to `5f`. -/
def decodeStack (high : Bool) (b : UInt8) : Option Op :=
  if 0x50 ≤ b ∧ b < 0x60 then
    let r : Register := Fin.ofNat 16 ((b.toNat % 8) + if high then 8 else 0)
    some (if b < 0x58 then .push r else .pop r)
  else none

/-- As far as the passes use the encodings. -/
def decode : List UInt8 → Option Op
  | [b] => decodeStack false b
  | [0x41, b] => decodeStack true b
  | [0x48, 0x8d, 0x64, 0x24, d] => some (.moveStack (imm8 d))
  | [0x48, 0x8d, 0xa4, 0x24, d₀, d₁, d₂, d₃] => some (.moveStack (imm32 d₀ d₁ d₂ d₃))
  | [0x48, 0x83, 0xc4, i] => some (.addStack (imm8 i))
  | [0x48, 0x83, 0xec, i] => some (.subStack (imm8 i))
  | [0x65, 0x4c, 0x8b, 0x1c, 0x25, 0, 0, 0, 0] => some .loadPointer
  | [0x65, 0x4c, 0x89, 0x1c, 0x25, 0, 0, 0, 0] => some .storePointer
  | [0x4d, 0x8d, 0x5b, d] => some (.movePointer (imm8 d))
  | [0x4c, 0x8b, 0x14, 0x24] => some (.loadReturn 0)
  | [0x4c, 0x8b, 0x54, 0x24, d] => some (.loadReturn (imm8 d))
  | [0x4c, 0x8b, 0x94, 0x24, d₀, d₁, d₂, d₃] => some (.loadReturn (imm32 d₀ d₁ d₂ d₃))
  | [0x65, 0x4d, 0x89, 0x13] => some .storeReturn
  | [0x65, 0x4d, 0x39, 0x13] => some .compareReturn
  | _ => none

theorem decode_pushBytes (r : Register) : decode (pushBytes r) = some (.push r) := by
  revert r
  decide

theorem decode_popBytes (r : Register) : decode (popBytes r) = some (.pop r) := by
  revert r
  decide

/-! ## The machine -/

structure Flags where
  zero : Bool
  carry : Bool
  sign : Bool
  overflow : Bool
deriving DecidableEq, Repr

structure Machine where
  regs : Register → Word
  stack : Word → Word
  gs : Word → Word
  flags : Flags

/-- The flags of `a - b`. -/
def compareFlags (a b : Word) : Flags where
  zero := a = b
  carry := a < b
  sign := (a - b).msb
  overflow := a.msb != b.msb && (a - b).msb != a.msb

def addFlags (a b : Word) : Flags where
  zero := a + b = 0
  carry := a + b < a
  sign := (a + b).msb
  overflow := a.msb == b.msb && (a + b).msb != a.msb

def Machine.setReg (m : Machine) (r : Register) (v : Word) : Machine := { m with regs := Function.update m.regs r v }

def Op.exec (m : Machine) : Op → Machine
  | push r => { m.setReg rsp (m.regs rsp - 8) with stack := Function.update m.stack (m.regs rsp - 8) (m.regs r) }
  | pop r => (m.setReg rsp (m.regs rsp + 8)).setReg r (m.stack (m.regs rsp))
  | moveStack disp => m.setReg rsp (m.regs rsp + disp)
  | addStack imm => { m.setReg rsp (m.regs rsp + imm) with flags := addFlags (m.regs rsp) imm }
  | subStack imm => { m.setReg rsp (m.regs rsp - imm) with flags := compareFlags (m.regs rsp) imm }
  | loadPointer => m.setReg r11 (m.gs 0)
  | storePointer => { m with gs := Function.update m.gs 0 (m.regs r11) }
  | movePointer disp => m.setReg r11 (m.regs r11 + disp)
  | loadReturn disp => m.setReg r10 (m.stack (m.regs rsp + disp))
  | storeReturn => { m with gs := Function.update m.gs (m.regs r11) (m.regs r10) }
  | compareReturn => { m with flags := compareFlags (m.gs (m.regs r11)) (m.regs r10) }

def Op.writesFlags : Op → Bool
  | addStack _ | subStack _ | compareReturn => true
  | _ => false

/-- An inserted instruction: bytes, or the `jne` to the violation target. -/
inductive Inserted
  | bytes (code : List UInt8)
  | violationJump
deriving DecidableEq, Repr

def Inserted.op : Inserted → Option Op
  | bytes code => decode code
  | violationJump => none

def Inserted.writesFlags (i : Inserted) : Bool := i.op.any Op.writesFlags

/-- `none` is the jump to the violation target. -/
def Inserted.exec (m : Machine) : Inserted → Option Machine
  | bytes code => (decode code).map (·.exec m)
  | violationJump => if m.flags.zero then some m else none

end Egalito.Code
