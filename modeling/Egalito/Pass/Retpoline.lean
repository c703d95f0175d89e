import Egalito.Lib.Decimal
import Egalito.X86.Stack
/-!
# `RetpolinePass`

`pass/retpoline.cpp`. An indirect jump or call becomes a direct one to a
trampoline, which loads the target, puts it over a return address and returns.
-/

namespace Egalito.Retpoline

open Lib X86

/-! ## Operands -/

/-- `disp(base,index,scale)`, as it can be encoded. -/
structure MemoryOperand where
  base : Option Register
  index : Option Register
  scale : Nat
  disp : BitVec 32
  index_ne : index ≠ some rsp
  scale_mem : scale ∈ [1, 2, 4, 8]

inductive IndirectOperand
  | reg (r : Register)
  | mem (o : MemoryOperand)

def MemoryOperand.operand (o : MemoryOperand) : Operand := ⟨o.base, o.index, o.scale, o.disp.signExtend 64⟩

/-- Where the instruction goes. -/
def IndirectOperand.target (m : Machine) : IndirectOperand → Word
  | reg r => m.regs r
  | mem o => m.mem.load (o.operand.address m.regs)

inductive Kind
  | jump
  | call
deriving DecidableEq, Repr

/-! ## The trampoline -/

/-- `X86Register::convertToPhysical`, with `INVALID` for no register. -/
def convertToPhysical : Option Register → Int
  | some r => (r.val : Int)
  | none => -1

/-- The number of `scale /= 2` that are not zero. -/
def scaleBits (scale : Nat) : Nat := Nat.log2 scale

def displacementBytes (disp : BitVec 32) : List UInt8 :=
  [⟨disp.extractLsb' 0 8⟩, ⟨disp.extractLsb' 8 8⟩, ⟨disp.extractLsb' 16 8⟩, ⟨disp.extractLsb' 24 8⟩]

def rexByte (reg indexReg : Int) : UInt8 :=
  let rex : UInt8 := if reg ≥ 8 then 0x4c ||| 0b0001 else 0x4c
  if indexReg ≥ 8 then rex ||| 0b0010 else rex

/-- The byte with scale, index and base; integers are cut to `unsigned char`. -/
def sibByte (scale : Nat) (reg indexReg : Int) : UInt8 :=
  let sib : UInt8 := UInt8.ofNat (scaleBits scale) <<< 6
  let sib := if reg ≥ 8 then sib ||| UInt8.ofInt (reg - 8) else sib ||| UInt8.ofInt reg
  if indexReg > 8 then sib ||| UInt8.ofInt (indexReg - 8) <<< 3 else sib ||| UInt8.ofInt indexReg <<< 3

/-- `movq disp(%reg), %r11` without the displacement. -/
def baseCode (reg indexReg : Int) : List UInt8 :=
  if reg ≥ 8 then [rexByte reg indexReg, 0x8b, UInt8.ofInt (0x98 + reg - 8)] ++ if reg = 12 then [0x24] else []
  else [rexByte reg indexReg, 0x8b, UInt8.ofInt (0x98 + reg)] ++ if reg = 4 then [0x24] else []

/-- `movq disp(%reg, %index, scale), %r11` without the displacement. -/
def indexCode (scale : Nat) (reg indexReg : Int) : List UInt8 :=
  [rexByte reg indexReg, 0x8b, 0x9c, sibByte scale reg indexReg]

/-- The bytes of `movq EA, %r11`. -/
def movBytes : IndirectOperand → List UInt8
  | .reg r =>
    let reg := convertToPhysical (some r)
    let rex : UInt8 := if reg ≥ 8 then 0x49 ||| 0b0100 else 0x49
    let operand : UInt8 := 0xc3
    [rex, 0x89, if reg ≥ 8 then operand ||| UInt8.ofInt (reg - 8) <<< 3 else operand ||| UInt8.ofInt reg <<< 3]
  | .mem o =>
    let reg := convertToPhysical o.base
    let indexReg := convertToPhysical o.index
    (if indexReg = -1 then baseCode reg indexReg else indexCode o.scale reg indexReg) ++ displacementBytes o.disp

def makeMovInstruction (o : IndirectOperand) : Option (List Instr) := do
  let ins1 ← decode (movBytes o)
  let ins2 ← decode [0x4c, 0x89, 0x1c, 0x24]
  some [ins1, ins2]

/-- The blocks of the function that is made, by their numbers. -/
def makeOutlinedTrampoline (o : IndirectOperand) : Option (List (Block Empty)) := do
  let pauseIns ← decode [0xf3, 0x90]
  let movInsList ← makeMovInstruction o
  some [⟨1, [.call 3]⟩, ⟨2, [.plain pauseIns, .jump 2]⟩, ⟨3, movInsList.map .plain ++ [.ret]⟩]

def operandName : IndirectOperand → List Char
  | .reg r => 'r' :: decimal (convertToPhysical (some r))
  | .mem o => ['m', 'r'] ++ decimal (convertToPhysical o.base) ++
    (if o.index ≠ none then ['_', 'r'] ++ decimal (convertToPhysical o.index) else []) ++
    (if o.scale ≠ 1 then '@' :: decimal o.scale else []) ++ if o.disp ≠ 0 then '$' :: decimal o.disp.toInt else []

def kindName : Kind → List Char
  | .jump => ['j', 'm', 'p', '_']
  | .call => ['c', 'a', 'l', 'l', '_']

/-- The name that a trampoline is looked up by. -/
def trampolineName (kind : Kind) (o : IndirectOperand) : List Char :=
  "retpoline_".toList ++ (kindName kind ++ operandName o)

/-! ## Names -/

/-- What follows the base in the name. -/
def operandFields (o : MemoryOperand) : List Char :=
  field '_' ['r'] (o.index.map (·.val)) ++ (field '@' [] (if o.scale ≠ 1 then some o.scale else none) ++
    (field '$' [] (if o.disp ≠ 0 then some o.disp.toInt else none) ++ []))

theorem convertToPhysical_injective : Function.Injective convertToPhysical := by
  rintro (_ | a) (_ | b) h <;> simp only [convertToPhysical] at h
  · rfl
  · omega
  · omega
  · exact congrArg some (Fin.ext (by omega))

theorem noDigit_of_head {l : List Char} (h : ∀ c ∈ l.head?, c = '_' ∨ c = '@' ∨ c = '$') : NoDigit l := fun c hc => by
  rcases h c hc with rfl | rfl | rfl <;> rfl

theorem operandName_mem (o : MemoryOperand) :
    operandName (.mem o) = ['m', 'r'] ++ (decimal (convertToPhysical o.base) ++ operandFields o) := by
  rw [operandName, operandFields]
  cases o.index <;> by_cases hs : o.scale = 1 <;> by_cases hd : o.disp = 0#32 <;> simp [field, hs, hd, convertToPhysical]

theorem noDigit_fields (o : MemoryOperand) : NoDigit (operandFields o) := noDigit_of_head fun c hc => by
  refine (head?_field hc).imp_right fun hc => (head?_field hc).imp_right fun hc => ?_
  simpa using head?_field hc

theorem operandFields_inj {o o' : MemoryOperand} (h : operandFields o = operandFields o') :
    o.index = o'.index ∧ o.scale = o'.scale ∧ o.disp = o'.disp := by
  have hdisp : ∀ (z : Option Int), ∀ c ∈ (field '$' [] z ++ []).head?, c = '$' := fun z c hc => by
    simpa using head?_field hc
  have hscale : ∀ (y z : Option Int), ∀ c ∈ (field '@' [] y ++ (field '$' [] z ++ [])).head?, c = '@' ∨ c = '$' :=
    fun y z c hc => (head?_field hc).imp_right (hdisp z c)
  obtain ⟨hindex, h⟩ := field_append_inj (noDigit_of_head fun c hc => .inr (hscale _ _ c hc))
    (noDigit_of_head fun c hc => .inr (hscale _ _ c hc)) (fun hc => by simpa using hscale _ _ _ hc)
    (fun hc => by simpa using hscale _ _ _ hc) h
  obtain ⟨hsc, h⟩ := field_append_inj (noDigit_of_head fun c hc => .inr (.inr (hdisp _ c hc)))
    (noDigit_of_head fun c hc => .inr (.inr (hdisp _ c hc))) (fun hc => by simpa using hdisp _ _ hc)
    (fun hc => by simpa using hdisp _ _ hc) h
  obtain ⟨hd, -⟩ := field_append_inj (show NoDigit [] by simp [NoDigit]) (show NoDigit [] by simp [NoDigit]) (by simp)
    (by simp) h
  refine ⟨?_, ?_, ?_⟩
  · refine Option.map_injective (fun i j hij => Fin.ext ?_) hindex
    simpa using hij
  · split_ifs at hsc <;> simp_all
  · split_ifs at hd <;> simp_all [BitVec.toInt_inj]

theorem operandName_inj {o o' : IndirectOperand} (h : operandName o = operandName o') : o = o' := by
  cases o with
  | reg r =>
    cases o' with
    | reg r' =>
      have hnil : NoDigit [] := by simp [NoDigit]
      have hr : decimal (convertToPhysical (some r)) = decimal (convertToPhysical (some r')) := (List.cons.inj h).2
      have hr := decimal_append_inj hnil hnil (congrArg (· ++ []) hr)
      exact congrArg IndirectOperand.reg (Option.some.inj (convertToPhysical_injective hr.1))
    | mem o' => exact absurd (List.cons.inj h).1 (by decide)
  | mem o =>
    cases o' with
    | reg r' => exact absurd (List.cons.inj h).1 (by decide)
    | mem o' =>
      rw [operandName_mem, operandName_mem] at h
      obtain ⟨hb, hfields⟩ := decimal_append_inj (noDigit_fields o) (noDigit_fields o') (List.append_cancel_left h)
      obtain ⟨hi, hs, hd⟩ := operandFields_inj hfields
      have hb := convertToPhysical_injective hb
      cases o
      cases o'
      cases hb
      cases hi
      cases hs
      cases hd
      rfl

theorem trampolineName_inj {kind kind' : Kind} {o o' : IndirectOperand} (h : trampolineName kind o = trampolineName kind' o') :
    kind = kind' ∧ o = o' := by
  have h : kindName kind ++ operandName o = kindName kind' ++ operandName o' := List.append_cancel_left h
  cases kind <;> cases kind'
  · exact ⟨rfl, operandName_inj (List.append_cancel_left h)⟩
  · exact absurd (List.cons.inj h).1 (by decide)
  · exact absurd (List.cons.inj h).1 (by decide)
  · exact ⟨rfl, operandName_inj (List.append_cancel_left h)⟩

/-! ## What the bytes stand for -/

theorem decode_load_base {rex modrm d₀ d₁ d₂ d₃ : UInt8} (hrex : rex &&& 0xf0 = 0x40) (hw : (Rex.ofByte rex).w = true)
    (hmod : modrm >>> 6 = 2) (hrm : modrm &&& 7 ≠ 4) : decode [rex, 0x8b, modrm, d₀, d₁, d₂, d₃] =
      some (.load (registerOf (Rex.ofByte rex).r (modrm >>> 3))
        ⟨some (registerOf (Rex.ofByte rex).b modrm), none, 1, imm32 d₀ d₁ d₂ d₃⟩) := by
  simp [decode, decodeOp, hrex, hw, decodeModRM, hrm, decodeDisp, hmod, loadOf]

theorem decode_load_sib {rex modrm sib d₀ d₁ d₂ d₃ : UInt8} (hrex : rex &&& 0xf0 = 0x40) (hw : (Rex.ofByte rex).w = true)
    (hmod : modrm >>> 6 = 2) (hrm : modrm &&& 7 = 4) : decode [rex, 0x8b, modrm, sib, d₀, d₁, d₂, d₃] =
      some (.load (registerOf (Rex.ofByte rex).r (modrm >>> 3))
        ⟨some (registerOf (Rex.ofByte rex).b sib),
          if registerOf (Rex.ofByte rex).x (sib >>> 3) = rsp then none else some (registerOf (Rex.ofByte rex).x (sib >>> 3)),
          2 ^ (sib >>> 6).toNat, imm32 d₀ d₁ d₂ d₃⟩) := by
  simp [decode, decodeOp, hrex, hw, decodeModRM, hrm, decodeDisp, hmod, loadOf]

theorem imm32_displacementBytes (disp : BitVec 32) : imm32 ⟨disp.extractLsb' 0 8⟩ ⟨disp.extractLsb' 8 8⟩
    ⟨disp.extractLsb' 16 8⟩ ⟨disp.extractLsb' 24 8⟩ = disp.signExtend 64 := by
  unfold imm32
  congr 1
  refine BitVec.eq_of_getLsbD_eq fun i hi => ?_
  simp only [BitVec.getLsbD_append, BitVec.getLsbD_extractLsb']
  split_ifs <;> simp <;> grind

/-- The test for the index leaves out 8, and so a bit of that goes to the scale. -/
def loadedScale (index : Register) (scale : Nat) : Nat := if index = r8 ∧ (scale = 1 ∨ scale = 4) then 2 * scale else scale

theorem sibByte_spec : ∀ s ∈ [1, 2, 4, 8], ∀ b i : Register, i ≠ rsp →
    let sib := sibByte s (convertToPhysical (some b)) (convertToPhysical (some i))
    let rex := Rex.ofByte (rexByte (convertToPhysical (some b)) (convertToPhysical (some i)))
    rexByte (convertToPhysical (some b)) (convertToPhysical (some i)) &&& 0xf0 = 0x40 ∧ rex.w = true ∧ rex.r = true ∧
      registerOf rex.b sib = b ∧ registerOf rex.x (sib >>> 3) = i ∧ 2 ^ (sib >>> 6).toNat = loadedScale i s := by
  decide +kernel

/-- Without a base, -1 for it sets all bits. -/
theorem sibByte_spec_none : ∀ s ∈ [1, 2, 4, 8], ∀ i : Register, i ≠ rsp →
    let sib := sibByte s (convertToPhysical none) (convertToPhysical (some i))
    let rex := Rex.ofByte (rexByte (convertToPhysical none) (convertToPhysical (some i)))
    rexByte (convertToPhysical none) (convertToPhysical (some i)) &&& 0xf0 = 0x40 ∧ rex.w = true ∧ rex.r = true ∧
      registerOf rex.b sib = rdi ∧ registerOf rex.x (sib >>> 3) = (if i.val < 8 then rdi else r15) ∧
      2 ^ (sib >>> 6).toNat = 8 := by
  decide +kernel

/-- What the first of the two instructions is. -/
def loadedInstr (o : MemoryOperand) : Instr :=
  match o.base, o.index with
  | some b, none => .load r11 ⟨some b, none, 1, o.disp.signExtend 64⟩
  | some b, some i => .load r11 ⟨some b, some i, loadedScale i o.scale, o.disp.signExtend 64⟩
  | none, none => .load r10 ⟨some rdi, none, 1, o.disp.signExtend 64⟩
  | none, some i => .load r11 ⟨some rdi, some (if i.val < 8 then rdi else r15), 8, o.disp.signExtend 64⟩

theorem decode_movBytes_reg (r : Register) : decode (movBytes (.reg r)) = some (.move r11 r) := by
  revert r
  decide

theorem baseCode_spec : ∀ b : Register,
    let rex := rexByte (convertToPhysical (some b)) (convertToPhysical none)
    let modrm : UInt8 := UInt8.ofNat (0x98 + b.val % 8)
    baseCode (convertToPhysical (some b)) (convertToPhysical none) =
        [rex, 0x8b, modrm] ++ (if modrm &&& 7 = 4 then [0x24] else []) ∧
      rex &&& 0xf0 = 0x40 ∧ (Rex.ofByte rex).w = true ∧ modrm >>> 6 = 2 ∧
      registerOf (Rex.ofByte rex).r (modrm >>> 3) = r11 ∧ registerOf (Rex.ofByte rex).x ((0x24 : UInt8) >>> 3) = rsp ∧
      registerOf (Rex.ofByte rex).b modrm = b ∧ (modrm &&& 7 = 4 → registerOf (Rex.ofByte rex).b 0x24 = b) := by
  decide +kernel

theorem decode_baseCode (b : Register) (disp : BitVec 32) :
    decode (baseCode (convertToPhysical (some b)) (convertToPhysical none) ++ displacementBytes disp) =
      some (.load r11 ⟨some b, none, 1, disp.signExtend 64⟩) := by
  obtain ⟨hcode, hrex, hw, hmod, hreg, hindex, hbase, hsib⟩ := baseCode_spec b
  rw [hcode, ← imm32_displacementBytes]
  split
  · rename_i hrm
    refine (decode_load_sib hrex hw hmod hrm).trans ?_
    rw [hreg, hindex, hsib hrm, if_pos rfl]
    rfl
  · rename_i hrm
    refine (decode_load_base hrex hw hmod hrm).trans ?_
    rw [hreg, hbase]

theorem decode_indexCode {o : MemoryOperand} {i : Register} (hi : o.index = some i) :
    decode (indexCode o.scale (convertToPhysical o.base) (convertToPhysical (some i)) ++ displacementBytes o.disp) =
      some (loadedInstr o) := by
  have hne : i ≠ rsp := fun he => o.index_ne (he ▸ hi)
  rw [loadedInstr, hi, ← imm32_displacementBytes]
  cases hb : o.base with
  | none =>
    obtain ⟨hrex, hw, hr, hbase, hindex, hscale⟩ := sibByte_spec_none o.scale o.scale_mem i hne
    refine (decode_load_sib hrex hw (by decide) (by decide)).trans ?_
    rw [hr, hbase, hindex, hscale, if_neg]
    · rfl
    · split <;> decide
  | some b =>
    obtain ⟨hrex, hw, hr, hbase, hindex, hscale⟩ := sibByte_spec o.scale o.scale_mem b i hne
    refine (decode_load_sib hrex hw (by decide) (by decide)).trans ?_
    rw [hr, hbase, hindex, hscale, if_neg hne]
    rfl

theorem decode_movBytes_mem (o : MemoryOperand) : decode (movBytes (.mem o)) = some (loadedInstr o) := by
  rw [movBytes]
  cases hi : o.index with
  | some i => rw [if_neg (by simp [convertToPhysical]), decode_indexCode hi]
  | none =>
    rw [if_pos (show convertToPhysical none = -1 from rfl), loadedInstr, hi]
    cases hb : o.base with
    | some b => exact decode_baseCode b o.disp
    | none =>
      rw [← imm32_displacementBytes]
      exact decode_load_base (by decide) (by decide) (by decide) (by decide)

/-! ## The run of a trampoline -/

section Run

variable {kind : Kind} {o : IndirectOperand} {address : Point → Word} {ins : Instr} {m : Machine} {target stack : Word}

def storeTarget : Instr := .store ⟨some rsp, none, 1, 0⟩ r11

def trampoline (ins : Instr) : List (Block Empty) :=
  [⟨1, [.call 3]⟩, ⟨2, [.plain .pause, .jump 2]⟩, ⟨3, [.plain ins, .plain storeTarget, .ret]⟩]

def firstInstr : IndirectOperand → Instr
  | .reg r => .move r11 r
  | .mem o => loadedInstr o

theorem makeOutlinedTrampoline_eq : makeOutlinedTrampoline o = some (trampoline (firstInstr o)) := by
  have hmov : decode (movBytes o) = some (firstInstr o) := by
    cases o with
    | reg r => exact decode_movBytes_reg r
    | mem o => exact decode_movBytes_mem o
  rw [makeOutlinedTrampoline, makeMovInstruction, hmov]
  rfl

/-- The code gets to a return with the target on top of the stack, and the stack pointer is right when that is taken off. -/
def Transfers (address : Point → Word) (blocks : List (Block Empty)) (m : Machine) (target stack : Word) : Prop :=
  ∃ p m', Reaches address (fun e _ => e.elim) blocks ((0, 0), m) (p, m') ∧
    (blocks[p.1]?.bind (·.code[p.2]?)) = some .ret ∧ m'.top = target ∧ m'.regs rsp + 8 = stack

theorem transfers_trampoline (hrsp : ∀ m : Machine, (ins.exec m).regs rsp = m.regs rsp) :
    Transfers address (trampoline ins) m target stack ↔
      (ins.exec (m.pushWord (address (0, 1)))).regs r11 = target ∧ m.regs rsp = stack := by
  set final := storeTarget.exec (ins.exec (m.pushWord (address (0, 1)))) with hfinal
  have hcall : step address (fun e _ => e.elim) (trampoline ins) ((0, 0), m) = some ((2, 0), m.pushWord (address (0, 1))) := rfl
  have hload : step address (fun e _ => e.elim) (trampoline ins) ((2, 0), m.pushWord (address (0, 1))) =
      some ((2, 1), ins.exec (m.pushWord (address (0, 1)))) := rfl
  have hstore : step address (fun e _ => e.elim) (trampoline ins) ((2, 1), ins.exec (m.pushWord (address (0, 1)))) =
      some ((2, 2), final) := rfl
  have hrun : Reaches address (fun e _ => e.elim) (trampoline ins) ((0, 0), m) ((2, 2), final) :=
    .head hcall (.head hload (.head hstore .refl))
  have htop : final.top = (ins.exec (m.pushWord (address (0, 1)))).regs r11 := by
    simp [hfinal, storeTarget, Instr.exec, Machine.top, Operand.address]
  have hstack : final.regs rsp + 8 = m.regs rsp := by
    have hsame : final.regs rsp = (ins.exec (m.pushWord (address (0, 1)))).regs rsp := rfl
    rw [hsame, hrsp, Machine.pushWord_rsp, BitVec.sub_add_cancel]
  constructor
  · rintro ⟨p, m', hreach, hret, rfl, rfl⟩
    have hstuck : step address (fun e _ => e.elim) (trampoline ins) (p, m') = none := by
      obtain ⟨b, hb, hcode⟩ := Option.bind_eq_some_iff.1 hret
      simp [step, hb, hcode, Insn.step]
    cases hreach.unique hrun hstuck rfl
    exact ⟨htop.symm, hstack.symm⟩
  · rintro ⟨rfl, rfl⟩
    exact ⟨_, _, hrun, rfl, htop, hstack⟩

/-! ## Which operands are right -/

/-- The return addresses that are on the stack when the operand is evaluated. -/
def pushed : Kind → Nat
  | .jump => 8
  | .call => 16

/-- The state when the trampoline is entered. -/
def entry (ret : Word) (m : Machine) : Kind → Machine
  | .jump => m
  | .call => m.pushWord ret

/-- The stack pointer that the instruction leaves. -/
def stackAfter (m : Machine) : Kind → Word
  | .jump => m.regs rsp
  | .call => m.regs rsp - 8

/-- How far the address that the trampoline loads from is from the one that the operand stands for. -/
def addressError (kind : Kind) (o : MemoryOperand) (regs : Register → Word) : Word :=
  match o.base with
  | none => o.index.elim 0 fun i =>
      regs rdi + regs (if i.val < 8 then rdi else r15) * 8#64 - regs i * BitVec.ofNat 64 o.scale
  | some b => (if b = rsp then -BitVec.ofNat 64 (pushed kind) else 0) +
      if o.index = some r8 ∧ (o.scale = 1 ∨ o.scale = 4) then regs r8 * BitVec.ofNat 64 o.scale else 0

/-- The operand is loaded from where it is, and not from the return addresses. -/
def Right (kind : Kind) (regs : Register → Word) : IndirectOperand → Prop
  | .reg r => r ≠ rsp
  | .mem o => (o.base ≠ none ∨ o.index ≠ none) ∧ addressError kind o regs = 0 ∧
      ∀ i < 8, pushed kind ≤ (o.operand.address regs + BitVec.ofNat 64 i - (regs rsp - BitVec.ofNat 64 (pushed kind))).toNat

theorem loadedInstr_address (kind : Kind) (regs : Register → Word) {o : MemoryOperand} (hsome : o.base ≠ none ∨ o.index ≠ none) :
    ∃ src : Operand, loadedInstr o = .load r11 src ∧ ∀ regs' : Register → Word, (∀ r, r ≠ rsp → regs' r = regs r) →
      regs' rsp = regs rsp - BitVec.ofNat 64 (pushed kind) →
      src.address regs' = o.operand.address regs + addressError kind o regs := by
  have hbase : ∀ regs' : Register → Word, (∀ r, r ≠ rsp → regs' r = regs r) →
      regs' rsp = regs rsp - BitVec.ofNat 64 (pushed kind) →
      ∀ b, regs' b = regs b + if b = rsp then -BitVec.ofNat 64 (pushed kind) else 0 := fun regs' hregs hrsp b => by
    split
    · rename_i he
      rw [he, hrsp]
      ring
    · rename_i hne
      rw [hregs b hne]
      ring
  cases hb : o.base with
  | none =>
    obtain ⟨i, hi⟩ := Option.ne_none_iff_exists'.1 (hsome.resolve_left (not_not.2 hb))
    refine ⟨_, by rw [loadedInstr, hb, hi], fun regs' hregs hrsp => ?_⟩
    have hindex : regs' (if i.val < 8 then rdi else r15) = regs (if i.val < 8 then rdi else r15) :=
      hregs _ (by split <;> decide)
    simp only [Operand.address, MemoryOperand.operand, addressError, hb, hi, Option.elim_some, Option.elim_none, hindex,
      hregs rdi (by decide)]
    ring
  | some b =>
    cases hi : o.index with
    | none =>
      refine ⟨_, by rw [loadedInstr, hb, hi], fun regs' hregs hrsp => ?_⟩
      simp only [Operand.address, MemoryOperand.operand, addressError, hb, hi, Option.elim_some, Option.elim_none,
        hbase regs' hregs hrsp b, reduceCtorEq, false_and, if_false]
      ring
    | some i =>
      have hne : i ≠ rsp := fun he => o.index_ne (he ▸ hi)
      refine ⟨_, by rw [loadedInstr, hb, hi], fun regs' hregs hrsp => ?_⟩
      simp only [Operand.address, MemoryOperand.operand, addressError, hb, hi, Option.elim_some,
        hbase regs' hregs hrsp b, hregs i hne, loadedScale, Option.some.injEq]
      by_cases h8 : i = r8 ∧ (o.scale = 1 ∨ o.scale = 4)
      · rw [if_pos h8, if_pos h8, BitVec.ofNat_mul, h8.1, show BitVec.ofNat 64 2 = (1 + 1 : Word) from rfl]
        ring
      · rw [if_neg h8, if_neg h8]
        ring

/-- The return addresses, over any memory. -/
def overlay (ret : Word) (address : Point → Word) (s : Word) (mem : Memory) : Kind → Memory
  | .jump => mem.store (s - 8) (address (0, 1))
  | .call => (mem.store (s - 8) ret).store (s - 16) (address (0, 1))

variable {ret s x : Word} {mem mem' : Memory}

theorem overlay_out (hx : ¬ (x - (s - BitVec.ofNat 64 (pushed kind))).toNat < pushed kind) :
    overlay ret address s mem kind x = mem x := by
  cases kind with
  | jump => exact Memory.store_of_le (not_lt.1 hx)
  | call =>
    have hd : 16 ≤ (x - (s - 16)).toNat := not_lt.1 hx
    have hnext : (x - (s - 8)).toNat = (x - (s - 16)).toNat - 8 := by
      have he : x - (s - 8) = x - (s - 16) - 8 := by ring
      rw [he, BitVec.toNat_sub, show (8 : Word).toNat = 8 from rfl]
      omega
    exact (Memory.store_of_le (by omega)).trans (Memory.store_of_le (by omega))

theorem overlay_in (hx : (x - (s - BitVec.ofNat 64 (pushed kind))).toNat < pushed kind) :
    overlay ret address s mem kind x = overlay ret address s mem' kind x := by
  cases kind with
  | jump => exact (writeWord_of_lt hx).trans (writeWord_of_lt hx).symm
  | call =>
    have hd : (x - (s - 16)).toNat < 16 := hx
    by_cases hlow : (x - (s - 16)).toNat < 8
    · exact (writeWord_of_lt hlow).trans (writeWord_of_lt hlow).symm
    · have hnext : (x - (s - 8)).toNat < 8 := by
        have he : x - (s - 8) = x - (s - 16) - 8 := by ring
        rw [he, BitVec.toNat_sub, show (8 : Word).toNat = 8 from rfl]
        omega
      have hinner : ∀ mem : Memory, overlay ret address s mem .call x = mem.store (s - 8) ret x := fun mem =>
        Memory.store_of_le (not_lt.1 hlow)
      rw [hinner, hinner]
      exact (writeWord_of_lt hnext).trans (writeWord_of_lt hnext).symm

theorem entry_rsp : (entry ret m kind).regs rsp = stackAfter m kind := by
  cases kind with
  | jump => rfl
  | call => exact Machine.pushWord_rsp

theorem entry_pushWord (kind : Kind) (ret : Word) (m : Machine) (a : Word) : (∀ r, r ≠ rsp → ((entry ret m kind).pushWord a).regs r = m.regs r) ∧
    ((entry ret m kind).pushWord a).regs rsp = m.regs rsp - BitVec.ofNat 64 (pushed kind) ∧
    ((entry ret m kind).pushWord a).mem = overlay ret (fun _ => a) (m.regs rsp) m.mem kind := by
  cases kind with
  | jump => exact ⟨fun r hr => Machine.pushWord_regs hr, Machine.pushWord_rsp, rfl⟩
  | call =>
    have hrsp : ((m.pushWord ret).pushWord a).regs rsp = m.regs rsp - 16 := by
      rw [Machine.pushWord_rsp, Machine.pushWord_rsp, sub_sub]
      rfl
    refine ⟨fun r hr => (Machine.pushWord_regs hr).trans (Machine.pushWord_regs hr), hrsp, ?_⟩
    have hmem : ((m.pushWord ret).pushWord a).mem =
        (m.mem.store (m.regs rsp - 8) ret).store ((m.pushWord ret).regs rsp - 8) a := rfl
    refine hmem.trans ?_
    rw [Machine.pushWord_rsp, sub_sub]
    rfl

/-- Only without base and index another register is loaded. -/
theorem firstInstr_exec (h : ∀ src, o = .mem src → src.base ≠ none ∨ src.index ≠ none) (m : Machine) :
    ∃ v, (firstInstr o).exec m = m.set r11 v := by
  cases o with
  | reg r => exact ⟨_, rfl⟩
  | mem src =>
    rw [firstInstr, loadedInstr]
    split
    · exact ⟨_, rfl⟩
    · exact ⟨_, rfl⟩
    · rename_i hb hi
      exact absurd (h src rfl) (by simp [hb, hi])
    · exact ⟨_, rfl⟩

theorem firstInstr_rsp (m : Machine) : ((firstInstr o).exec m).regs rsp = m.regs rsp := by
  cases o with
  | reg r => exact Machine.set_regs_of_ne (by decide)
  | mem o =>
    rw [firstInstr, loadedInstr]
    split <;> exact Machine.set_regs_of_ne (by decide)

variable {regs : Register → Word}

/-- What the first instruction leaves in the register, with fixed return addresses on the stack. -/
theorem reg_right_iff (ret a : Word) {r : Register} : (∀ (mem : Memory) (flags : Flags),
    ((firstInstr (.reg r)).exec ((entry ret ⟨regs, mem, flags⟩ kind).pushWord a)).regs r11 =
      (IndirectOperand.reg r).target ⟨regs, mem, flags⟩) ↔ Right kind regs (.reg r) := by
  have hmove : ∀ (mem : Memory) (flags : Flags),
      ((firstInstr (.reg r)).exec ((entry ret ⟨regs, mem, flags⟩ kind).pushWord a)).regs r11 =
        ((entry ret ⟨regs, mem, flags⟩ kind).pushWord a).regs r := fun _ _ => Machine.set_regs_self
  simp only [hmove, IndirectOperand.target, Right]
  constructor
  · rintro h rfl
    have hlow := h (fun _ => 0) (Flags.ofWord 0)
    rw [(entry_pushWord ..).2.1, sub_eq_self] at hlow
    cases kind <;> revert hlow <;> decide
  · exact fun hne _ _ => (entry_pushWord ..).1 r hne

theorem mem_right_iff (ret a : Word) {o : MemoryOperand} : (∀ (mem : Memory) (flags : Flags),
    ((firstInstr (.mem o)).exec ((entry ret ⟨regs, mem, flags⟩ kind).pushWord a)).regs r11 =
      (IndirectOperand.mem o).target ⟨regs, mem, flags⟩) ↔ Right kind regs (.mem o) := by
  by_cases hsome : o.base ≠ none ∨ o.index ≠ none
  · obtain ⟨src, hsrc, haddress⟩ := loadedInstr_address kind regs hsome
    have hload : ∀ (mem : Memory) (flags : Flags),
        ((firstInstr (.mem o)).exec ((entry ret ⟨regs, mem, flags⟩ kind).pushWord a)).regs r11 =
          (overlay ret (fun _ => a) (regs rsp) mem kind).load (o.operand.address regs + addressError kind o regs) := by
      intro mem flags
      obtain ⟨hregs, hrsp, hmem⟩ := entry_pushWord kind ret ⟨regs, mem, flags⟩ a
      rw [firstInstr, hsrc, ← haddress _ hregs hrsp, Instr.exec, Machine.set_regs_self, hmem]
    have hoverlay : (∀ mem : Memory, (overlay ret (fun _ => a) (regs rsp) mem kind).load
        (o.operand.address regs + addressError kind o regs) = mem.load (o.operand.address regs)) ↔ _ :=
      readWord_overlay_iff (n := 8) (by norm_num) (by norm_num) (fun mem x => overlay_out) (fun mem mem' x => overlay_in)
    simp only [hload, IndirectOperand.target, Right]
    constructor
    · intro h
      obtain ⟨herror, hclear⟩ := hoverlay.1 fun mem => h mem (Flags.ofWord 0)
      exact ⟨hsome, by simpa using herror, fun i hi => not_lt.1 (hclear i hi)⟩
    · rintro ⟨-, herror, hclear⟩ mem flags
      exact hoverlay.2 ⟨by rw [herror, add_zero], fun i hi => not_lt.2 (hclear i hi)⟩ mem
  · refine iff_of_false (fun h => ?_) fun h => hsome h.1
    rw [not_or, not_not, not_not] at hsome
    have hr11 := h (Memory.store (fun _ => 0) (o.operand.address regs) (regs r11 + 1)) (Flags.ofWord 0)
    have hkeep : ∀ m : Machine, ((firstInstr (.mem o)).exec m).regs r11 = m.regs r11 := fun m => by
      rw [firstInstr, loadedInstr, hsome.1, hsome.2]
      exact Machine.set_regs_of_ne (by decide)
    rw [hkeep, (entry_pushWord ..).1 r11 (by decide), IndirectOperand.target, Memory.load_store] at hr11
    simp at hr11

theorem operand_right_iff (ret a : Word) : (∀ (mem : Memory) (flags : Flags),
    ((firstInstr o).exec ((entry ret ⟨regs, mem, flags⟩ kind).pushWord a)).regs r11 = o.target ⟨regs, mem, flags⟩) ↔
      Right kind regs o := by
  cases o with
  | reg r => exact reg_right_iff ret a
  | mem o => exact mem_right_iff ret a

/-- The target that the trampoline goes to is what its first instruction leaves in the register. -/
theorem transfers_iff : (∀ mem flags ret address, ∃ blocks, makeOutlinedTrampoline o = some blocks ∧
    Transfers address blocks (entry ret ⟨regs, mem, flags⟩ kind) (o.target ⟨regs, mem, flags⟩)
      (stackAfter ⟨regs, mem, flags⟩ kind)) ↔ Right kind regs o := by
  have htransfers : ∀ mem flags ret address, (∃ blocks, makeOutlinedTrampoline o = some blocks ∧
      Transfers address blocks (entry ret ⟨regs, mem, flags⟩ kind) (o.target ⟨regs, mem, flags⟩)
        (stackAfter ⟨regs, mem, flags⟩ kind)) ↔
      ((firstInstr o).exec ((entry ret ⟨regs, mem, flags⟩ kind).pushWord (address (0, 1)))).regs r11 =
        o.target ⟨regs, mem, flags⟩ := by
    intro mem flags ret address
    rw [makeOutlinedTrampoline_eq]
    simp only [Option.some.injEq, exists_eq_left', transfers_trampoline firstInstr_rsp, entry_rsp, and_true]
  simp only [htransfers]
  constructor
  · exact fun h => (operand_right_iff 0 0).1 fun mem flags => h mem flags 0 fun _ => 0
  · exact fun h mem flags ret address => (operand_right_iff ret (address (0, 1))).2 h mem flags

/-- The trampoline of an operand goes where the instruction goes, whatever is in the memory, exactly when the operand is
right; and it is used for no other instruction. -/
theorem retpoline_transfers_iff (kind : Kind) (o : IndirectOperand) (regs : Register → Word) :
    (∀ kind' o', trampolineName kind' o' = trampolineName kind o → kind' = kind ∧ o' = o) ∧
    ((∀ mem flags ret address, ∃ blocks, makeOutlinedTrampoline o = some blocks ∧
      Transfers address blocks (entry ret ⟨regs, mem, flags⟩ kind) (o.target ⟨regs, mem, flags⟩)
        (stackAfter ⟨regs, mem, flags⟩ kind)) ↔ Right kind regs o) :=
  ⟨fun _ _ => trampolineName_inj, transfers_iff⟩

/-- `(%rax,%r8)` -/
def indexedOperand : IndirectOperand := .mem ⟨some rax, some r8, 1, 0, by decide, by decide⟩

/-- The trampoline of a call with it loads from `(%rax,%r8,2)`. -/
theorem r8_index_scaled : ¬ ∀ mem flags ret address, ∃ blocks, makeOutlinedTrampoline indexedOperand = some blocks ∧
    Transfers address blocks (entry ret ⟨fun _ => 8, mem, flags⟩ .call)
      (indexedOperand.target ⟨fun _ => 8, mem, flags⟩) (stackAfter ⟨fun _ => 8, mem, flags⟩ .call) := by
  intro h
  obtain ⟨-, herror, -⟩ := transfers_iff.1 h
  revert herror
  decide

end Run

end Egalito.Retpoline
