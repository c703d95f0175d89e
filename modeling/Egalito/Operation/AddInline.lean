import Egalito.Lib.Run
import Egalito.X86.Stack
/-!
# `ChunkAddInline`

`operation/addinline.cpp`. Generated code is put between code that saves the
registers it clobbers and code that restores them. The generator is told how far
the stack pointer has been moved.
-/

namespace Egalito.AddInline

open Lib X86

/-! ## The code -/

inductive ClobberedRegister
  | eflags | rax | rbx | rcx | rdx | rsi | rdi | rbp | rsp | r8 | r9 | r10 | r11 | r12 | r13 | r14 | r15
  | other (id : Nat)
deriving DecidableEq, Repr

def saveBytes : ClobberedRegister → List UInt8
  | .eflags => [0x9c]
  | .rax => [0x50]
  | .rbx => [0x53]
  | .rcx => [0x51]
  | .rdx => [0x52]
  | .rsi => [0x56]
  | .rdi => [0x57]
  | .rbp => [0x55]
  | .rsp => [0x54]
  | .r8 => [0x41, 0x50]
  | .r9 => [0x41, 0x51]
  | .r10 => [0x41, 0x52]
  | .r11 => [0x41, 0x53]
  | .r12 => [0x41, 0x54]
  | .r13 => [0x41, 0x55]
  | .r14 => [0x41, 0x56]
  | .r15 => [0x41, 0x57]
  | .other _ => []

def restoreBytes : ClobberedRegister → List UInt8
  | .eflags => [0x9d]
  | .rax => [0x58]
  | .rbx => [0x5b]
  | .rcx => [0x59]
  | .rdx => [0x5a]
  | .rsi => [0x5e]
  | .rdi => [0x5f]
  | .rbp => [0x5d]
  | .rsp => [0x5c]
  | .r8 => [0x41, 0x58]
  | .r9 => [0x41, 0x59]
  | .r10 => [0x41, 0x5a]
  | .r11 => [0x41, 0x5b]
  | .r12 => [0x41, 0x5c]
  | .r13 => [0x41, 0x5d]
  | .r14 => [0x41, 0x5e]
  | .r15 => [0x41, 0x5f]
  | .other _ => []

/-- `Disassemble::instruction` throws when the bytes are no instruction. -/
def getRegSaveCode (redzone : Bool) (regList : List ClobberedRegister) : Option (List Instr) := do
  let skip ← if redzone ∧ regList.length > 0 then (decode [0x48, 0x8d, 0x64, 0x24, 0x80]).map ([·]) else some []
  let pushes ← regList.mapM (decode <| saveBytes ·)
  some (skip ++ pushes)

def getRegRestoreCode (redzone : Bool) (regList : List ClobberedRegister) : Option (List Instr) := do
  let pops ← regList.reverse.mapM (decode <| restoreBytes ·)
  let skip ← if redzone ∧ regList.length > 0 then
    (decode [0x48, 0x8d, 0xa4, 0x24, 0x80, 0x00, 0x00, 0x00]).map ([·]) else some []
  some (pops ++ skip)

/-- An `unsigned int`. -/
def stackBytesAdded (redzone : Bool) (regList : List ClobberedRegister) : UInt32 :=
  UInt32.ofNat (regList.length * 8) + if redzone then 0x80 else 0

/-- The instructions of the generated code are of any type. -/
def getFullCode {I : Type} (hasStackFrame : Bool) (regList : List ClobberedRegister) (generator : UInt32 → List I) :
    Option (List (Instr ⊕ I)) := do
  let save ← getRegSaveCode (!hasStackFrame) regList
  let restore ← getRegRestoreCode (!hasStackFrame) regList
  some (save.map .inl ++ (generator (stackBytesAdded (!hasStackFrame) regList)).map .inr ++ restore.map .inl)

/-! ## The instructions behind the bytes -/

local instance neZero_sixteen : NeZero 16 := ⟨by decide⟩

/-- What is saved of a register that is supported. -/
def slot? : ClobberedRegister → Option Slot
  | .eflags => some .flags
  | .rax => some (.reg 0)
  | .rcx => some (.reg 1)
  | .rdx => some (.reg 2)
  | .rbx => some (.reg 3)
  | .rsp => some (.reg 4)
  | .rbp => some (.reg 5)
  | .rsi => some (.reg 6)
  | .rdi => some (.reg 7)
  | .r8 => some (.reg 8)
  | .r9 => some (.reg 9)
  | .r10 => some (.reg 10)
  | .r11 => some (.reg 11)
  | .r12 => some (.reg 12)
  | .r13 => some (.reg 13)
  | .r14 => some (.reg 14)
  | .r15 => some (.reg 15)
  | .other _ => none

theorem decode_saveBytes (c : ClobberedRegister) : decode (saveBytes c) = (slot? c).map Slot.save := by
  cases c <;> rfl

theorem decode_restoreBytes (c : ClobberedRegister) : decode (restoreBytes c) = (slot? c).map Slot.restore := by
  cases c <;> rfl

def redzoneSize : Nat := 0x80

theorem decode_skip : decode [0x48, 0x8d, 0x64, 0x24, 0x80] = some (moveStack (-BitVec.ofNat 64 redzoneSize)) := rfl

theorem decode_unskip :
    decode [0x48, 0x8d, 0xa4, 0x24, 0x80, 0x00, 0x00, 0x00] = some (moveStack (BitVec.ofNat 64 redzoneSize)) := rfl

/-! ## The code as saves around the generated code -/

section Code

variable {I : Type} {exec : Machine → I → Machine} {regList : List ClobberedRegister} {slots : List Slot}
  {hasStackFrame redzone : Bool} {generator : UInt32 → List I} {m : Machine}

def Supported (regList : List ClobberedRegister) : Prop := ∀ c ∈ regList, ∃ s, slot? c = some s

/-- By how many bytes the saves move the stack pointer. -/
def saveSize (redzone : Bool) (regList : List ClobberedRegister) : Nat :=
  8 * regList.length + if redzone ∧ regList.length > 0 then redzoneSize else 0

theorem mapM_decode {bytes : ClobberedRegister → List UInt8} {instr : Slot → Instr}
    (hbytes : ∀ c, decode (bytes c) = (slot? c).map instr) (h : List.Forall₂ (fun c s => slot? c = some s) regList slots) :
    regList.mapM (decode <| bytes ·) = some (slots.map instr) := by
  refine mapM_eq_some_iff.2 (List.forall₂_map_right_iff.2 (h.imp fun c s hs => ?_))
  rw [hbytes, hs, Option.map_some]

def skipCode (redzone : Bool) (disp : Word) (regList : List ClobberedRegister) : List Instr :=
  if redzone ∧ regList.length > 0 then [moveStack disp] else []

theorem getRegSaveCode_eq (h : List.Forall₂ (fun c s => slot? c = some s) regList slots) : getRegSaveCode redzone regList =
    some (skipCode redzone (-BitVec.ofNat 64 redzoneSize) regList ++ slots.map Slot.save) := by
  rw [getRegSaveCode, mapM_decode decode_saveBytes h, decode_skip, skipCode]
  split <;> rfl

theorem getRegRestoreCode_eq (h : List.Forall₂ (fun c s => slot? c = some s) regList slots) :
    getRegRestoreCode redzone regList =
      some (slots.reverse.map Slot.restore ++ skipCode redzone (BitVec.ofNat 64 redzoneSize) regList) := by
  rw [getRegRestoreCode, mapM_decode decode_restoreBytes (List.forall₂_reverse_iff.2 h), decode_unskip, skipCode]
  split <;> rfl

/-- Nothing is built when a register is not supported. -/
theorem getFullCode_unsupported (h : ¬ Supported regList) : getFullCode hasStackFrame regList generator = none := by
  have hnone : ∀ pushes, regList.mapM (decode <| saveBytes ·) ≠ some pushes := fun pushes hp => h fun c hc => by
    obtain ⟨i, -, hi⟩ := exists_right_of_forall₂ (mapM_eq_some_iff.1 hp) c hc
    rw [decode_saveBytes, Option.map_eq_some_iff] at hi
    exact ⟨_, hi.choose_spec.1⟩
  rw [getFullCode, getRegSaveCode, Option.eq_none_iff_forall_ne_some.2 hnone]
  split <;> rfl

/-- What is executed: the generated code in the saves, and these below the red zone. -/
theorem getFullCode_eq (h : List.Forall₂ (fun c s => slot? c = some s) regList slots) :
    getFullCode hasStackFrame regList generator =
      let code := nested ((generator (stackBytesAdded (!hasStackFrame) regList)).map .inr) slots
      some (if (!hasStackFrame) = true ∧ regList.length > 0 then moved redzoneSize code else code) := by
  rw [getFullCode, getRegSaveCode_eq h, getRegRestoreCode_eq h, nested_eq, skipCode, skipCode]
  split <;> simp [moved]

theorem save_rsp (h : List.Forall₂ (fun c s => slot? c = some s) regList slots) {save : List Instr}
    (hsave : getRegSaveCode redzone regList = some save) :
    (save.foldl (fun m i => i.exec m) m).regs rsp = m.regs rsp - BitVec.ofNat 64 (saveSize redzone regList) := by
  rw [getRegSaveCode_eq h, Option.some.injEq] at hsave
  rw [← hsave, List.foldl_append, foldl_save_rsp, ← h.length_eq, skipCode, saveSize]
  split
  · rw [List.foldl_cons, List.foldl_nil, moveStack_exec, Machine.set_regs_self, BitVec.ofNat_add]
    ring
  · rfl

/-! ## What the code is to do -/

/-- The generated code gets the distance that the stack pointer was moved by when it starts, all that is listed is
restored, and no byte of the red zone is written. -/
structure Correct (exec : Machine → I → Machine) (redzone : Bool) (regList : List ClobberedRegister)
    (code : List (Instr ⊕ I)) (m : Machine) : Prop where
  distance : ∀ save, getRegSaveCode redzone regList = some save →
    (m.regs rsp - (save.foldl (fun m i => i.exec m) m).regs rsp).toNat = (stackBytesAdded redzone regList).toNat
  restored : ∀ c ∈ regList, ∀ s, slot? c = some s → s.Same m (code.foldl (execWith exec) m)
  rsp : (code.foldl (execWith exec) m).regs rsp = m.regs rsp
  redzone : redzone = true → ∀ p, p <+: code → ∀ x, (x - (m.regs X86.rsp - BitVec.ofNat 64 redzoneSize)).toNat < redzoneSize →
    (p.foldl (execWith exec) m).mem x = m.mem x

theorem toNat_stackBytesAdded : (stackBytesAdded redzone regList).toNat =
    (8 * regList.length + if redzone then redzoneSize else 0) % 2 ^ 32 := by
  rw [stackBytesAdded, UInt32.toNat_add, UInt32.toNat_ofNat', Nat.mul_comm]
  cases redzone <;> simp [redzoneSize]

/-- The code of a list with supported registers restores, and does not write above the saves. -/
theorem getFullCode_restores (hfits : 8 * regList.length + redzoneSize < 2 ^ 64)
    (h : List.Forall₂ (fun c s => slot? c = some s) regList slots)
    (hgenerator : Keeps exec (saveSize (!hasStackFrame) regList) (generator (stackBytesAdded (!hasStackFrame) regList)))
    {code : List (Instr ⊕ I)} (hcode : getFullCode hasStackFrame regList generator = some code) :
    (∀ t ∈ slots, t.Same m (code.foldl (execWith exec) m)) ∧ (code.foldl (execWith exec) m).regs rsp = m.regs rsp ∧
      ((!hasStackFrame) = true → regList ≠ [] → ∀ p, p <+: code → ∀ x,
        (x - (m.regs rsp - BitVec.ofNat 64 redzoneSize)).toNat < redzoneSize → (p.foldl (execWith exec) m).mem x = m.mem x) := by
  rw [getFullCode_eq h, Option.some.injEq] at hcode
  have hkeeps := hgenerator.map_inr
  rw [saveSize, Nat.add_comm] at hkeeps
  by_cases hskip : (!hasStackFrame) = true ∧ regList.length > 0
  · rw [if_pos hskip] at hcode
    rw [if_pos hskip, h.length_eq] at hkeeps
    have hspace : redzoneSize + 8 * slots.length ≤ 2 ^ 64 := by
      rw [← h.length_eq]
      omega
    have hnested := hkeeps.nested hspace
    have hrsp : (code.foldl (execWith exec) m).regs rsp = m.regs rsp := by
      rw [← hcode, foldl_moved hnested, Machine.set_regs_self]
    refine ⟨fun t ht => ?_, hrsp, fun _ _ p hp x hx => hnested.moved_above (hcode ▸ hp) hx⟩
    by_cases hreg : t = .reg rsp
    · subst hreg
      exact hrsp
    · rw [← hcode]
      exact moved_same hnested (fun m => hkeeps.nested_same hspace ht) hreg
  · rw [if_neg hskip] at hcode
    rw [if_neg hskip, h.length_eq] at hkeeps
    have hspace : 0 + 8 * slots.length ≤ 2 ^ 64 := by
      rw [← h.length_eq]
      omega
    refine ⟨fun t ht => ?_, ?_, fun hred hne => absurd ⟨hred, List.length_pos_of_ne_nil hne⟩ hskip⟩
    · rw [← hcode]
      exact hkeeps.nested_same hspace ht
    · rw [← hcode]
      exact (hkeeps.nested hspace).rsp m

/-- The distance is right when the size of the saves is what the generator is told. -/
theorem distance_iff (redzone : Bool) (m : Machine) (hfits : 8 * regList.length + redzoneSize < 2 ^ 64)
    (h : List.Forall₂ (fun c s => slot? c = some s) regList slots) :
    (∀ save, getRegSaveCode redzone regList = some save →
      (m.regs rsp - (save.foldl (fun m i => i.exec m) m).regs rsp).toNat = (stackBytesAdded redzone regList).toNat) ↔
      (regList ≠ [] ∨ redzone = false) ∧ 8 * regList.length + (if redzone then redzoneSize else 0) < 2 ^ 32 := by
  have hsize : ∀ save, getRegSaveCode redzone regList = some save →
      (m.regs rsp - (save.foldl (fun m i => i.exec m) m).regs rsp).toNat = saveSize redzone regList := fun save hsave => by
    rw [save_rsp h hsave, sub_sub_cancel, BitVec.toNat_ofNat, Nat.mod_eq_of_lt]
    unfold saveSize
    split <;> omega
  have hred : redzoneSize = 128 := rfl
  constructor
  · intro hdist
    have heq := hdist _ (getRegSaveCode_eq h)
    rw [hsize _ (getRegSaveCode_eq h), toNat_stackBytesAdded, saveSize] at heq
    cases redzone with
    | false =>
      simp only [Bool.false_eq_true, false_and, if_false] at heq ⊢
      exact ⟨.inr trivial, by omega⟩
    | true =>
      cases regList with
      | nil => simp [hred] at heq
      | cons c l =>
        simp only [List.length_cons, if_true, true_and, gt_iff_lt, Nat.succ_pos] at heq ⊢
        exact ⟨.inl (List.cons_ne_nil c l), by omega⟩
  · rintro ⟨hne, hsmall⟩ save hsave
    rw [hsize save hsave, toNat_stackBytesAdded, Nat.mod_eq_of_lt hsmall, saveSize]
    cases redzone with
    | false => rfl
    | true =>
      have hpos : regList.length > 0 := List.length_pos_of_ne_nil (hne.resolve_right nofun)
      simp [hpos]

/-- Unless a register is not supported, the code is right exactly when there is a register to save or no red zone, and
the distance is an `unsigned int`. -/
theorem getFullCode_correct_iff (hfits : 8 * regList.length + redzoneSize < 2 ^ 64)
    (hgenerator : Keeps exec (saveSize (!hasStackFrame) regList) (generator (stackBytesAdded (!hasStackFrame) regList))) :
    (∀ code, getFullCode hasStackFrame regList generator = some code → ∀ m, Correct exec (!hasStackFrame) regList code m) ↔
      (∃ c ∈ regList, slot? c = none) ∨ (regList ≠ [] ∨ hasStackFrame = true) ∧
        8 * regList.length + (if hasStackFrame then 0 else redzoneSize) < 2 ^ 32 := by
  by_cases hsupported : Supported regList
  · obtain ⟨slots, h⟩ := exists_forall₂ hsupported
    have hdistance : ∀ m : Machine, _ := fun m => distance_iff (!hasStackFrame) m hfits h
    constructor
    · intro hcorrect
      have hmachine : Machine := ⟨fun _ => 0, fun _ => 0, Flags.ofWord 0⟩
      refine .inr ?_
      have := (hdistance hmachine).1 (hcorrect _ (getFullCode_eq h) hmachine).distance
      cases hasStackFrame <;> simpa using this
    · rintro (⟨c, hc, hnone⟩ | hsmall) code hcode m
      · obtain ⟨s, hs⟩ := hsupported c hc
        rw [hnone] at hs
        cases hs
      · obtain ⟨hrestored, hrsp, hredzone⟩ := getFullCode_restores (m := m) hfits h hgenerator hcode
        refine ⟨(hdistance m).2 (by cases hasStackFrame <;> simpa using hsmall), fun c hc s hs => ?_, hrsp, fun hred => ?_⟩
        · obtain ⟨t, ht, hct⟩ := exists_right_of_forall₂ h c hc
          rw [hs, Option.some.injEq] at hct
          exact hct ▸ hrestored t ht
        · refine hredzone hred (hsmall.1.resolve_right ?_)
          simpa using hred
  · refine iff_of_true (fun code hcode => ?_) (.inl ?_)
    · rw [getFullCode_unsupported hsupported] at hcode
      cases hcode
    · by_contra hnone
      push Not at hnone
      exact hsupported fun c hc => Option.ne_none_iff_exists'.1 (hnone c hc)

end Code

/-- `mov disp(%rsp),%r10`, with the distance as displacement. -/
def loadReturn (stackBytesAdded : UInt32) : List Instr :=
  [.load r10 ⟨some rsp, none, 1, BitVec.ofNat 64 stackBytesAdded.toNat⟩]

theorem loadReturn_keeps (n : UInt32) (e : Nat) : Keeps Instr.exec e (loadReturn n) := by
  refine ⟨fun m => Machine.set_regs_of_ne (by decide), fun m p hp x _ => ?_⟩
  cases p with
  | nil => rfl
  | cons i p =>
    obtain ⟨rfl, hq⟩ := List.cons_prefix_cons.1 hp
    rw [List.prefix_nil.1 hq]
    rfl

theorem getFullCode_correct_sample : ∃ code, getFullCode false [.eflags, .r10, .rsp] loadReturn = some code ∧
    Correct Instr.exec true [.eflags, .r10, .rsp] code ⟨fun _ => 0, fun _ => 0, Flags.ofWord 0⟩ :=
  ⟨_, rfl, (getFullCode_correct_iff (by decide) (show Keeps Instr.exec (saveSize (!false) _) (loadReturn _) from
    loadReturn_keeps _ _)).2 (.inr (by decide)) _ rfl _⟩

/-- Without a register to save nothing is pushed, and the red zone is not skipped, but the generator is told so. -/
theorem empty_list_distance : ¬ ∀ code, getFullCode false [] loadReturn = some code →
    ∀ m, Correct Instr.exec true [] code m := by
  intro hcorrect
  have hdist := (hcorrect _ rfl ⟨fun _ => 0, fun _ => 0, Flags.ofWord 0⟩).distance [] rfl
  simp [stackBytesAdded] at hdist

end Egalito.AddInline
