import Egalito.Code.Weaving
/-!
# `ShadowStackPass` in GS mode

`pass/shadowstack.cpp` with `operation/addinline.cpp`: the code that pushes the
return address at the beginning of a function, and the code that compares and
pops it in front of what leaves the function. Over a run the pushed addresses are
a stack, and a function returns to where it was called from or not at all.
-/

open Egalito.Lib

namespace Egalito.Code

/-! ## `ChunkAddInline` -/

def redzoneSize : Nat := 0x80

def getRegSaveCode (redzone : Bool) (regList : List Register) : List (List UInt8) :=
  (if redzone ∧ regList ≠ [] then [[0x48, 0x8d, 0x64, 0x24, 0x80]] else []) ++ regList.map pushBytes

def getRegRestoreCode (redzone : Bool) (regList : List Register) : List (List UInt8) :=
  regList.reverse.map popBytes ++
    if redzone ∧ regList ≠ [] then [[0x48, 0x8d, 0xa4, 0x24, 0x80, 0, 0, 0]] else []

def stackBytesAdded (redzone : Bool) (regList : List Register) : Nat :=
  regList.length * 8 + if redzone then redzoneSize else 0

/-- `getFullCode`: the generator is told how far the stack pointer has moved. -/
def getFullCode (redzone : Bool) (regList : List Register) (generator : Nat → List Semantic) : List Semantic :=
  (getRegSaveCode redzone regList).map ofBytes ++ (generator (stackBytesAdded redzone regList) ++
    (getRegRestoreCode redzone regList).map ofBytes)

namespace ShadowStack

/-! ## The inserted code -/

def getByte (x shift : Nat) : UInt8 := (x >>> (shift * 8)).toUInt8

/-- `mov stackBytesAdded(%rsp),%r10` -/
def loadReturnBytes (stackBytesAdded : Nat) : List UInt8 :=
  if stackBytesAdded = 0 then [0x4c, 0x8b, 0x14, 0x24]
  else if stackBytesAdded < 0x80 then [0x4c, 0x8b, 0x54, 0x24, getByte stackBytesAdded 0]
  else [0x4c, 0x8b, 0x94, 0x24, getByte stackBytesAdded 0, getByte stackBytesAdded 1, getByte stackBytesAdded 2,
    getByte stackBytesAdded 3]

def loadPointerBytes : List UInt8 := [0x65, 0x4c, 0x8b, 0x1c, 0x25, 0, 0, 0, 0]

def storePointerBytes : List UInt8 := [0x65, 0x4c, 0x89, 0x1c, 0x25, 0, 0, 0, 0]

/-- `mov %r10,%gs:(%r11)` -/
def storeReturnBytes : List UInt8 := [0x65, 0x4d, 0x89, 0x13]

/-- `cmp %r10,%gs:(%r11)` -/
def compareBytes : List UInt8 := [0x65, 0x4d, 0x39, 0x13]

/-- `lea -0x8(%r11),%r11` -/
def dropBytes : List UInt8 := [0x4d, 0x8d, 0x5b, 0xf8]

def regList : List Register := [r10, r11]

def pushCode (redzone : Bool) : List Semantic := getFullCode redzone regList fun stackBytesAdded =>
  [ofBytes loadPointerBytes, ofBytes [0x4d, 0x8d, 0x5b, 0x08], ofBytes (loadReturnBytes stackBytesAdded),
    ofBytes storeReturnBytes, ofBytes storePointerBytes]

def popCode (redzone : Bool) : List Semantic := getFullCode redzone regList fun stackBytesAdded =>
  [ofBytes loadPointerBytes, ofBytes (loadReturnBytes stackBytesAdded), ofBytes compareBytes,
    .inserted .violationJump, ofBytes dropBytes, ofBytes storePointerBytes]

/-! ## The pass -/

/-- In front of the first instruction of the first block, which is the start of the function for calls
but not for jumps to that instruction. -/
def pushToShadowStackGS (b : Body) : Option Body := do
  let block1 ← b.blocks.head?
  let instr1 ← block1.head?
  return b.insertAll instr1.1 (pushCode !b.hasStackFrame) false

def popFromShadowStackGS (b : Body) (instruction : Nat) : Body :=
  b.insertAll instruction (popCode !b.hasStackFrame) true

/-- The conditions of `visit(Instruction *)`. The jump to the violation target would be one. -/
def popsAt : Semantic → Bool
  | .returnInstruction => true
  | .controlFlow mnemonic link => mnemonic ≠ .callq ∧ link.isExternalJump
  | .indirectJump jumpTables _ => !Semantic.isForJumpTable jumpTables
  | .dataLinkedControlFlow isCall => !isCall
  | .inserted .violationJump => true
  | _ => false

def visitInstruction (b : Body) (instruction : Instruction) : Body :=
  if popsAt instruction.2 then popFromShadowStackGS b instruction.1 else b

/-- The names that `visit(Function *)` compares with, or looks for inside a name. -/
def skippedNames : List String :=
  ["egalito_endbr_violation", "egalito_shadowstack_violation", "egalito_allocate_shadow_stack_gs",
    "egalito_allocate_shadow_stack_const", "get_gs", "obstack_free", "_start", "__libc_start_main", "mmap64", "mmap",
    "arch_prctl", "__longjmp", "__longjmp_chk", "mdef_phone_id"]

def skippedParts : List String := ["memcpy", "memmove", "memset", "str"]

def skips (name : String) (isEntryPoint : Bool) : Bool :=
  skippedNames.contains name || isEntryPoint ||
    skippedParts.any fun part => (name.toList.tails.any fun tail => part.toList.isPrefixOf tail)

/-- The push, and then the visit of the instructions there are. The iterators of the loops stay at what a block
held before, where only its last instruction can be one that is popped at. -/
def instrument (b : Body) : Option Body := do
  let b ← pushToShadowStackGS b
  return b.code.foldl visitInstruction b

def visitFunction (name : String) (isEntryPoint : Bool) (b : Body) : Option Body :=
  if skips name isEntryPoint then some b else instrument b

end ShadowStack

/-! ## What the shadow stack code does

On the machine, the code at the beginning of a function pushes the return address
to the stack behind `%gs:0`, and the code at an exit pops it if it is the same.
Both keep the registers; only the comparison changes the flags.
-/

/-- `none` when the violation target is reached. -/
def execAll (m : Machine) (code : List Semantic) : Option Machine :=
  code.foldlM (fun m s => match s with
    | .inserted i => i.exec m
    | _ => none) m

theorem execAll_append (m : Machine) (front back : List Semantic) :
    execAll m (front ++ back) = (execAll m front).bind (execAll · back) := List.foldlM_append

theorem execAll_ops {code : List Semantic} {ops : List Op} (h : code.map Semantic.op = ops.map some) (m : Machine) :
    execAll m code = some (ops.foldl Op.exec m) := by
  induction code generalizing ops m with
  | nil =>
    cases ops with
    | nil => rfl
    | cons op ops => cases h
  | cons s code ih =>
    cases ops with
    | nil => cases h
    | cons op ops =>
      simp only [List.map_cons, List.cons.injEq] at h
      obtain ⟨hs, h⟩ := h
      have hexec : execAll m (s :: code) = execAll (op.exec m) code := by
        cases s with
        | inserted i =>
          cases i with
          | bytes bs =>
            have hdecode : decode bs = some op := hs
            simp [execAll, Inserted.exec, hdecode]
          | violationJump => cases hs
        | _ => cases hs
      rw [hexec, ih h]
      rfl

namespace ShadowStack

/-! ## Saved registers -/

attribute [ext] Machine

/-- How far below the stack pointer the registers are saved. -/
def saveOffset (redzone : Bool) : Word := if redzone then 0x80 else 0

theorem saveOffset_cases (z : Bool) : saveOffset z = 0 ∨ saveOffset z = 0x80 := by
  cases z
  · exact .inl rfl
  · exact .inr rfl

def saveOps (redzone : Bool) : List Op :=
  (if redzone then [Op.moveStack (-0x80)] else []) ++ [Op.push r10, Op.push r11]

def restoreOps (redzone : Bool) : List Op :=
  [Op.pop r11, Op.pop r10] ++ if redzone then [Op.moveStack 0x80] else []

/-- The stack with `r10` and `r11` behind its end. -/
def spill (redzone : Bool) (regs : Register → Word) (stack : Word → Word) : Word → Word :=
  Function.update (Function.update stack (regs rsp - saveOffset redzone - 8) (regs r10))
    (regs rsp - saveOffset redzone - 16) (regs r11)

/-- The machine between saving and restoring: `r10` and `r11` are on the stack. -/
structure Saved (redzone : Bool) (m m₁ : Machine) : Prop where
  stackPointer : m₁.regs rsp = m.regs rsp - saveOffset redzone - 16
  others : ∀ r, r ≠ rsp → r ≠ r10 → r ≠ r11 → m₁.regs r = m.regs r
  stack : m₁.stack = spill redzone m.regs m.stack

@[simp]
theorem setReg_regs (m : Machine) (r : Register) (v : Word) : (m.setReg r v).regs = Function.update m.regs r v := rfl

@[simp]
theorem setReg_stack (m : Machine) (r : Register) (v : Word) : (m.setReg r v).stack = m.stack := rfl

theorem setReg_self (m : Machine) (r : Register) : m.setReg r (m.regs r) = m := by
  unfold Machine.setReg
  rw [Function.update_eq_self]

/-- The red zone is passed over. -/
theorem moveStack_down (z : Bool) (m : Machine) :
    (if z then [Op.moveStack (-0x80)] else []).foldl Op.exec m = m.setReg rsp (m.regs rsp - saveOffset z) := by
  cases z
  · simp [saveOffset, setReg_self]
  · simp [saveOffset, Op.exec, BitVec.sub_eq_add_neg]

theorem moveStack_up (z : Bool) (m : Machine) :
    (if z then [Op.moveStack 0x80] else []).foldl Op.exec m = m.setReg rsp (m.regs rsp + saveOffset z) := by
  cases z
  · simp [saveOffset, setReg_self]
  · simp [saveOffset, Op.exec]

theorem save_exec (z : Bool) (m : Machine) : ∃ m₁, (saveOps z).foldl Op.exec m = m₁ ∧ Saved z m m₁ ∧
    m₁.gs = m.gs ∧ m₁.flags = m.flags := by
  refine ⟨_, rfl, ⟨?_, ?_, ?_⟩, ?_, ?_⟩ <;> rw [saveOps, List.foldl_append, moveStack_down]
  · simp only [List.foldl_cons, List.foldl_nil, Op.exec, setReg_regs, Function.update_self]
    bv_omega
  · intro r h4 h10 h11
    simp [Op.exec, h4]
  · have h16 : m.regs rsp - saveOffset z - 8 - 8 = m.regs rsp - saveOffset z - 16 := by bv_omega
    have h10 : r10 ≠ rsp := by decide
    have h11 : r11 ≠ rsp := by decide
    simp only [List.foldl_cons, List.foldl_nil, Op.exec, setReg_regs, setReg_stack, Function.update_self,
      Function.update_of_ne h10, Function.update_of_ne h11, h16, spill]
  · rfl
  · rfl

/-- Restoring gives back every register, and leaves the rest. -/
theorem restore_exec {z : Bool} {m m₂ : Machine} (h : Saved z m m₂) : ∃ m₃, (restoreOps z).foldl Op.exec m₂ = m₃ ∧
    m₃.regs = m.regs ∧ m₃.stack = m₂.stack ∧ m₃.gs = m₂.gs ∧ m₃.flags = m₂.flags := by
  refine ⟨_, rfl, ?_, ?_, ?_, ?_⟩ <;> rw [restoreOps, List.foldl_append, moveStack_up]
  · have h11 : m₂.stack (m₂.regs rsp) = m.regs r11 := by
      rw [h.stack, h.stackPointer, spill, Function.update_self]
    have h10 : m₂.stack (m₂.regs rsp + 8) = m.regs r10 := by
      have h8 : m.regs rsp - saveOffset z - 16 + 8 = m.regs rsp - saveOffset z - 8 := by bv_omega
      have hne : m.regs rsp - saveOffset z - 8 ≠ m.regs rsp - saveOffset z - 16 := by bv_omega
      rw [h.stack, h.stackPointer, h8, spill, Function.update_of_ne hne, Function.update_self]
    have hsp : m₂.regs rsp + 8 + 8 + saveOffset z = m.regs rsp := by
      rw [h.stackPointer]
      bv_omega
    have hr : rsp ≠ r11 := by decide
    have hr' : rsp ≠ r10 := by decide
    have hr'' : r11 ≠ r10 := by decide
    funext r
    simp only [List.foldl_cons, List.foldl_nil, Op.exec, setReg_regs, setReg_stack, Function.update_self,
      Function.update_of_ne hr, Function.update_of_ne hr', h10, h11, hsp]
    by_cases h4 : r = rsp
    · subst h4
      rw [Function.update_self]
    · rw [Function.update_of_ne h4]
      by_cases h10 : r = r10
      · subst h10
        rw [Function.update_self]
      · rw [Function.update_of_ne h10, Function.update_of_ne h4]
        by_cases h11 : r = r11
        · subst h11
          rw [Function.update_self]
        · rw [Function.update_of_ne h11, Function.update_of_ne h4, h.others r h4 h10 h11]
  · rfl
  · rfl
  · rfl

/-- The saved machine still has the return address where it was. -/
theorem Saved.returnAddress {z : Bool} {m m₁ : Machine} (h : Saved z m m₁) :
    m₁.stack (m₁.regs rsp + (16 + saveOffset z)) = m.stack (m.regs rsp) := by
  have hsp : m₁.regs rsp + (16 + saveOffset z) = m.regs rsp := by
    rw [h.stackPointer]
    bv_omega
  have hne : ∀ a : Word, a ≠ a - saveOffset z - 16 ∧ a ≠ a - saveOffset z - 8 := by
    intro a
    rcases saveOffset_cases z with hz | hz <;> rw [hz] <;> constructor <;> bv_omega
  obtain ⟨h16, h8⟩ := hne (m.regs rsp)
  rw [hsp, h.stack, spill, Function.update_of_ne h16, Function.update_of_ne h8]

/-! ## Push and pop -/

/-- What uses only `r10` and `r11` leaves the saved registers alone. -/
theorem Saved.congr {z : Bool} {m m₁ m₂ : Machine} (h : Saved z m m₁) (hregs : ∀ r, r ≠ r10 → r ≠ r11 → m₂.regs r = m₁.regs r)
    (hstack : m₂.stack = m₁.stack) : Saved z m m₂ where
  stackPointer := (hregs rsp (by decide) (by decide)).trans h.stackPointer
  others := fun r h4 h10 h11 => (hregs r h10 h11).trans (h.others r h4 h10 h11)
  stack := hstack.trans h.stack

def pushOps (redzone : Bool) : List Op :=
  [.loadPointer, .movePointer 8, .loadReturn (16 + saveOffset redzone), .storeReturn, .storePointer]

theorem pushCode_ops (z : Bool) : (pushCode z).map Semantic.op = (saveOps z ++ (pushOps z ++ restoreOps z)).map some := by
  cases z <;> decide

/-- The code at the beginning pushes the return address; registers and flags are as before. -/
theorem pushCode_exec (z : Bool) (m : Machine) : execAll m (pushCode z) = some
    { m with stack := spill z m.regs m.stack
             gs := Function.update (Function.update m.gs (m.gs 0 + 8) (m.stack (m.regs rsp))) 0 (m.gs 0 + 8) } := by
  obtain ⟨m₁, hm₁, hsaved, hgs, hflags⟩ := save_exec z m
  have hne : r11 ≠ r10 := by decide
  have hne' : rsp ≠ r11 := by decide
  have hbody : Saved z m ((pushOps z).foldl Op.exec m₁) := by
    refine hsaved.congr (fun r h10 h11 => ?_) rfl
    simp only [pushOps, List.foldl_cons, List.foldl_nil, Op.exec, setReg_regs, Function.update_of_ne h10,
      Function.update_of_ne h11]
  obtain ⟨m₃, hm₃, hregs, hstack, hgs₃, hflags₃⟩ := restore_exec hbody
  rw [execAll_ops (pushCode_ops z), List.foldl_append, List.foldl_append, hm₁, hm₃, Option.some.injEq]
  refine Machine.ext hregs (hstack.trans hbody.stack) ?_ (hflags₃.trans hflags)
  rw [hgs₃, ← hsaved.returnAddress, ← hgs]
  simp only [pushOps, List.foldl_cons, List.foldl_nil, Op.exec, Machine.setReg, Function.update_self,
    Function.update_of_ne hne, Function.update_of_ne hne']

def checkOps (redzone : Bool) : List Op := [.loadPointer, .loadReturn (16 + saveOffset redzone), .compareReturn]

def dropOps : List Op := [.movePointer (-8), .storePointer]

theorem popCode_split (z : Bool) : ∃ front back, popCode z = front ++ .inserted .violationJump :: back ∧
    front.map Semantic.op = (saveOps z ++ checkOps z).map some ∧
    back.map Semantic.op = (dropOps ++ restoreOps z).map some := by
  cases z
  · exact ⟨(popCode false).take 5, (popCode false).drop 6, by decide, by decide, by decide⟩
  · exact ⟨(popCode true).take 6, (popCode true).drop 7, by decide, by decide, by decide⟩

/-- The code at an exit pops the return address if it is on top of the shadow stack; otherwise it goes to
the violation target. -/
theorem popCode_exec (z : Bool) (m : Machine) : execAll m (popCode z) =
    if m.gs (m.gs 0) = m.stack (m.regs rsp) then some
      { m with stack := spill z m.regs m.stack
               gs := Function.update m.gs 0 (m.gs 0 - 8)
               flags := compareFlags (m.gs (m.gs 0)) (m.stack (m.regs rsp)) }
    else none := by
  obtain ⟨front, back, hsplit, hfront, hback⟩ := popCode_split z
  obtain ⟨m₁, hm₁, hsaved, hgs, -⟩ := save_exec z m
  have hne : r11 ≠ r10 := by decide
  have hne' : rsp ≠ r11 := by decide
  have hcheck : Saved z m ((checkOps z).foldl Op.exec m₁) := by
    refine hsaved.congr (fun r h10 h11 => ?_) rfl
    simp only [checkOps, List.foldl_cons, List.foldl_nil, Op.exec, setReg_regs, Function.update_of_ne h10,
      Function.update_of_ne h11]
  have hflags : ((checkOps z).foldl Op.exec m₁).flags = compareFlags (m.gs (m.gs 0)) (m.stack (m.regs rsp)) := by
    rw [← hsaved.returnAddress, ← hgs]
    simp only [checkOps, List.foldl_cons, List.foldl_nil, Op.exec, Machine.setReg, Function.update_self,
      Function.update_of_ne hne, Function.update_of_ne hne']
  have hexec : execAll m (popCode z) = if m.gs (m.gs 0) = m.stack (m.regs rsp) then
      execAll ((checkOps z).foldl Op.exec m₁) back else none := by
    rw [hsplit, execAll_append, execAll_ops hfront, List.foldl_append, hm₁]
    change (if ((checkOps z).foldl Op.exec m₁).flags.zero then some ((checkOps z).foldl Op.exec m₁) else none).bind
      (execAll · back) = _
    rw [hflags, compareFlags]
    by_cases heq : m.gs (m.gs 0) = m.stack (m.regs rsp)
    · rw [decide_eq_true heq, if_pos rfl, if_pos heq]
      rfl
    · rw [decide_eq_false heq, if_neg Bool.false_ne_true, if_neg heq]
      rfl
  rw [hexec]
  refine if_congr Iff.rfl ?_ rfl
  rw [execAll_ops hback, List.foldl_append, Option.some.injEq]
  have hdrop : Saved z m (dropOps.foldl Op.exec ((checkOps z).foldl Op.exec m₁)) := by
    refine hcheck.congr (fun r h10 h11 => ?_) ?_
    · simp only [dropOps, List.foldl_cons, List.foldl_nil, Op.exec, setReg_regs, Function.update_of_ne h11]
    · simp only [dropOps, List.foldl_cons, List.foldl_nil, Op.exec, setReg_stack]
  have hkeep : ∀ m' : Machine, (dropOps.foldl Op.exec m').flags = m'.flags := fun _ => rfl
  obtain ⟨m₃, hm₃, hregs, hstack, hgs₃, hflags₃⟩ := restore_exec hdrop
  rw [hkeep, hflags] at hflags₃
  rw [hm₃]
  refine Machine.ext hregs (hstack.trans hdrop.stack) ?_ hflags₃
  rw [hgs₃, ← hgs, BitVec.sub_eq_add_neg]
  simp only [dropOps, checkOps, List.foldl_cons, List.foldl_nil, Op.exec, Machine.setReg, Function.update_self,
    Function.update_of_ne hne]

/-! ## Runs

A run of a program with instrumented functions is code of the program, which does not use `%gs`, and the
inserted code at entries and exits. It is also a run on a machine that has a stack of return addresses of its
own: the shadow stack holds that stack as long as no run goes deeper than the mapping.
-/

/-- What the code of the program uses. -/
structure Visible where
  regs : Register → Word
  stack : Word → Word
  flags : Flags

def visible (m : Machine) : Visible := ⟨m.regs, m.stack, m.flags⟩

def Visible.machine (v : Visible) (gs : Word → Word) : Machine := ⟨v.regs, v.stack, gs, v.flags⟩

def Visible.returnAddress (v : Visible) : Word := v.stack (v.regs rsp)

inductive Event
  | code (f : Visible → Visible)
  | entry (redzone : Bool)
  | exit (redzone : Bool)

def Event.exec (m : Machine) : Event → Option Machine
  | code f => some ((f (visible m)).machine m.gs)
  | entry redzone => execAll m (pushCode redzone)
  | exit redzone => execAll m (popCode redzone)

def shadowStackSize : Nat := 10 * 1024 * 1024

/-- `egalito_allocate_shadow_stack_gs`: the pointer is at the third word. -/
def allocateShadowStackGs : Word → Word := Function.update (fun _ => 0) 0 16

/-- The machine with a stack of return addresses. -/
structure Guarded extends Visible where
  returns : List Word

def Event.check (g : Guarded) : Event → Option Guarded
  | code f => some { g with toVisible := f g.toVisible }
  | entry redzone =>
    some { g with stack := spill redzone g.regs g.stack, returns := g.returnAddress :: g.returns }
  | exit redzone =>
    match g.returns with
    | [] => none
    | a :: returns =>
      if a = g.returnAddress then
        some { g with stack := spill redzone g.regs g.stack, flags := compareFlags a a, returns := returns }
      else none

/-- From a depth on, no exit is without its entry, and what is pushed stays in the mapping. -/
def Fits : Nat → List Event → Prop
  | _, [] => True
  | depth, .code _ :: events => Fits depth events
  | depth, .entry _ :: events => 16 + 8 * (depth + 1) + 8 ≤ shadowStackSize ∧ Fits (depth + 1) events
  | 0, .exit _ :: _ => False
  | depth + 1, .exit _ :: events => Fits depth events

/-- Where the `k`-th return address is. -/
def slot (k : Nat) : Word := BitVec.ofNat 64 (16 + 8 * k)

def Holds (gs : Word → Word) : List Word → Prop
  | [] => True
  | a :: returns => gs (slot (returns.length + 1)) = a ∧ Holds gs returns

structure Refines (m : Machine) (g : Guarded) : Prop where
  visible : visible m = g.toVisible
  pointer : m.gs 0 = slot g.returns.length
  holds : Holds m.gs g.returns
  deep : 16 + 8 * g.returns.length + 8 ≤ shadowStackSize

theorem toNat_slot {k : Nat} (h : 16 + 8 * k + 8 ≤ shadowStackSize) : (slot k).toNat = 16 + 8 * k := by
  unfold shadowStackSize at h
  rw [slot, BitVec.toNat_ofNat]
  omega

theorem slot_ne_zero {k : Nat} (h : 16 + 8 * k + 8 ≤ shadowStackSize) : slot k ≠ 0 := by
  intro heq
  have := toNat_slot h
  rw [heq] at this
  change 0 = _ at this
  omega

theorem slot_add (k : Nat) : slot k + 8 = slot (k + 1) := by
  unfold slot
  bv_omega

theorem slot_sub (k : Nat) : slot (k + 1) - 8 = slot k := by
  unfold slot
  bv_omega

theorem Holds.congr {gs gs' : Word → Word} {returns : List Word} (h : Holds gs returns)
    (hgs : ∀ k, 0 < k → k ≤ returns.length → gs' (slot k) = gs (slot k)) : Holds gs' returns := by
  induction returns with
  | nil => trivial
  | cons a returns ih =>
    obtain ⟨ha, h⟩ := h
    refine ⟨(hgs _ (Nat.succ_pos _) le_rfl).trans ha, ih h fun k hpos hk => hgs k hpos ?_⟩
    rw [List.length_cons]
    omega

/-- One event: both machines stop, or both go on. -/
theorem Refines.step {m : Machine} {g : Guarded} {e : Event} {events : List Event} (h : Refines m g)
    (hfits : Fits g.returns.length (e :: events)) : e.exec m = none ∧ e.check g = none ∨
      ∃ m' g', e.exec m = some m' ∧ e.check g = some g' ∧ Refines m' g' ∧ Fits g'.returns.length events := by
  obtain ⟨⟨regs, stack, flags⟩, returns⟩ := g
  obtain ⟨regs', stack', gs, flags'⟩ := m
  obtain ⟨rfl, rfl, rfl⟩ : regs' = regs ∧ stack' = stack ∧ flags' = flags := by
    have := h.visible
    simpa [ShadowStack.visible] using this
  have hpointer : gs 0 = slot returns.length := h.pointer
  have hholds : Holds gs returns := h.holds
  cases e with
  | code f => exact .inr ⟨_, _, rfl, rfl, ⟨rfl, hpointer, hholds, h.deep⟩, hfits⟩
  | entry z =>
    have hdeep : 16 + 8 * (returns.length + 1) + 8 ≤ shadowStackSize := hfits.1
    refine .inr ⟨_, _, pushCode_exec z _, rfl, ⟨rfl, ?_, ⟨?_, ?_⟩, hdeep⟩, hfits.2⟩
    · dsimp only
      rw [Function.update_self, hpointer, slot_add]
      rfl
    · dsimp only
      rw [Function.update_of_ne (slot_ne_zero hdeep), hpointer, slot_add, Function.update_self]
      rfl
    · refine hholds.congr fun k hpos hk => ?_
      have hk' : 16 + 8 * k + 8 ≤ shadowStackSize := by omega
      have hne : slot k ≠ slot (returns.length + 1) := by
        intro heq
        have hsame := congrArg BitVec.toNat heq
        rw [toNat_slot hk', toNat_slot hdeep] at hsame
        omega
      dsimp only
      rw [Function.update_of_ne (slot_ne_zero hk'), hpointer, slot_add, Function.update_of_ne hne]
  | exit z =>
    cases returns with
    | nil => exact hfits.elim
    | cons a returns =>
      obtain ⟨ha, hholds⟩ := hholds
      have htop : gs (gs 0) = a := by rw [hpointer]; exact ha
      have hexec := popCode_exec z ⟨regs', stack', gs, flags'⟩
      by_cases heq : a = stack' (regs' rsp)
      · rw [if_pos (htop.trans heq)] at hexec
        have hflags : compareFlags (gs (gs 0)) (stack' (regs' rsp)) = compareFlags a a := by rw [htop, ← heq]
        refine .inr ⟨_, _, hexec, if_pos heq, ⟨congrArg (Visible.mk regs' _) hflags, ?_, ?_, ?_⟩, hfits⟩
        · dsimp only
          rw [Function.update_self, hpointer]
          exact slot_sub _
        · refine hholds.congr fun k hpos hk => ?_
          have := h.deep
          rw [List.length_cons] at this
          exact Function.update_of_ne (slot_ne_zero (by omega)) _ _
        · have := h.deep
          rw [List.length_cons] at this
          dsimp only
          omega
      · rw [if_neg fun h => heq (htop.symm.trans h)] at hexec
        exact .inl ⟨hexec, if_neg heq⟩

theorem Refines.run {m : Machine} {g : Guarded} {events rest : List Event} (h : Refines m g)
    (hfits : Fits g.returns.length (events ++ rest)) :
    events.foldlM Event.exec m = none ∧ events.foldlM Event.check g = none ∨
      ∃ m' g', events.foldlM Event.exec m = some m' ∧ events.foldlM Event.check g = some g' ∧ Refines m' g' ∧
        Fits g'.returns.length rest := by
  induction events generalizing m g with
  | nil => exact .inr ⟨m, g, rfl, rfl, h, hfits⟩
  | cons e events ih =>
    rcases h.step hfits with ⟨hexec, hcheck⟩ | ⟨m', g', hexec, hcheck, h', hfits'⟩
    · exact .inl (by simp [hexec, hcheck])
    · simp only [List.foldlM_cons, hexec, hcheck, Option.bind_eq_bind, Option.bind_some]
      exact ih h' hfits'

theorem refines_start (v : Visible) : Refines (v.machine allocateShadowStackGs) ⟨v, []⟩ :=
  ⟨rfl, rfl, trivial, of_decide_eq_true rfl⟩

/-- What the program sees of a run is what it sees on the machine with the stack of return addresses, and a run
stops at the violation target exactly when it stops there. -/
theorem run_guarded (v : Visible) {events : List Event} (h : Fits 0 events) :
    (events.foldlM Event.exec (v.machine allocateShadowStackGs)).map visible =
      (events.foldlM Event.check ⟨v, []⟩).map Guarded.toVisible := by
  have hfits : Fits 0 (events ++ []) := by rwa [List.append_nil]
  rcases (refines_start v).run hfits with ⟨hexec, hcheck⟩ | ⟨m', g', hexec, hcheck, h', -⟩
  · rw [hexec, hcheck]
    rfl
  · rw [hexec, hcheck, Option.map_some, Option.map_some, h'.visible]

/-- A program that overwrites its return addresses. -/
def overwrite (v : Visible) : Visible := { v with stack := fun _ => 1 }

def sampleVisible : Visible := ⟨fun _ => 0, fun _ => 0, ⟨false, false, false, false⟩⟩

theorem run_guarded_overwritten :
    ([Event.entry true, .code overwrite, .exit false].foldlM Event.exec
      (sampleVisible.machine allocateShadowStackGs)).map visible = none :=
  run_guarded sampleVisible ⟨of_decide_eq_true rfl, trivial⟩

/-! ## Calls that return -/

/-- Each entry has its exit. -/
inductive Nested : List Event → Prop
  | nil : Nested []
  | code {f events} : Nested events → Nested (.code f :: events)
  | call {z z' body events} : Nested body → Nested events → Nested (.entry z :: (body ++ .exit z' :: events))

theorem Nested.returns {events : List Event} (h : Nested events) {g g' : Guarded}
    (hrun : events.foldlM Event.check g = some g') : g'.returns = g.returns := by
  induction h generalizing g g' with
  | nil => exact congrArg Guarded.returns (Option.some.inj hrun).symm
  | code _ ih =>
    rw [List.foldlM_cons, Option.bind_eq_bind, Event.check, Option.bind_some] at hrun
    have hreturns := ih hrun
    exact hreturns
  | @call z z' body events _ _ ihbody ih =>
    rw [List.foldlM_cons, Option.bind_eq_bind, Event.check, Option.bind_some, List.foldlM_append,
      Option.bind_eq_bind, Option.bind_eq_some_iff] at hrun
    obtain ⟨g₁, hbody, hrun⟩ := hrun
    have hreturns := ihbody hbody
    dsimp only at hreturns
    rw [List.foldlM_cons, Option.bind_eq_bind, Option.bind_eq_some_iff] at hrun
    obtain ⟨g₂, hexit, hrun⟩ := hrun
    rw [Event.check, hreturns] at hexit
    dsimp only at hexit
    split_ifs at hexit
    rw [ih hrun, ← Option.some.inj hexit]

/-- An exit is passed exactly when the return address is the one that the entry before its calls has found. -/
theorem exit_passes_iff (v : Visible) {front body : List Event} {z z' : Bool} {m m' : Machine} (hbody : Nested body)
    (hfits : Fits 0 (front ++ .entry z :: (body ++ [.exit z'])))
    (hm : front.foldlM Event.exec (v.machine allocateShadowStackGs) = some m)
    (hm' : (Event.entry z :: body).foldlM Event.exec m = some m') :
    ((Event.exit z').exec m').isSome ↔ (visible m').returnAddress = (visible m).returnAddress := by
  obtain ⟨g, hg, hfits⟩ : ∃ g, Refines m g ∧ Fits g.returns.length (.entry z :: (body ++ [.exit z'])) := by
    rcases (refines_start v).run hfits with ⟨hexec, -⟩ | ⟨m₁, g, hexec, -, hg, hfits⟩
    · rw [hexec] at hm
      cases hm
    · obtain rfl := Option.some.inj (hexec.symm.trans hm)
      exact ⟨g, hg, hfits⟩
  obtain ⟨g', hrun, hg', hfits⟩ : ∃ g', (Event.entry z :: body).foldlM Event.check g = some g' ∧ Refines m' g' ∧
      Fits g'.returns.length [.exit z'] := by
    have hfits : Fits g.returns.length ((Event.entry z :: body) ++ [.exit z']) := hfits
    rcases hg.run hfits with ⟨hexec, -⟩ | ⟨m₁, g', hexec, hcheck, hg', hfits⟩
    · rw [hexec] at hm'
      cases hm'
    · obtain rfl := Option.some.inj (hexec.symm.trans hm')
      exact ⟨g', hcheck, hg', hfits⟩
  rw [List.foldlM_cons, Option.bind_eq_bind, Event.check, Option.bind_some] at hrun
  have hreturns : g'.returns = g.returnAddress :: g.returns := hbody.returns hrun
  have hcheck : (Event.exit z').check g' = if g.returnAddress = g'.returnAddress then
      some { g' with stack := spill z' g'.regs g'.stack, flags := compareFlags g.returnAddress g.returnAddress,
                     returns := g.returns } else none := by
    rw [Event.check, hreturns]
  rw [hg.visible, hg'.visible]
  rcases hg'.step hfits with ⟨hexec, hnone⟩ | ⟨m₂, g₂, hexec, hsome, -, -⟩
  · rw [hexec]
    rw [hcheck, ite_eq_right_iff] at hnone
    exact iff_of_false Bool.false_ne_true fun heq => nomatch hnone heq.symm
  · rw [hexec]
    rw [hcheck, Option.ite_none_right_eq_some] at hsome
    exact iff_of_true rfl hsome.1.symm

theorem exit_passes_iff_overwritten : ∃ m', [Event.entry true, .code overwrite].foldlM Event.exec
    (sampleVisible.machine allocateShadowStackGs) = some m' ∧ ¬ ((Event.exit false).exec m').isSome := by
  obtain ⟨m₁, hm₁⟩ : ∃ m₁, execAll (sampleVisible.machine allocateShadowStackGs) (pushCode true) = some m₁ :=
    ⟨_, pushCode_exec true _⟩
  have hm' : [Event.entry true, .code overwrite].foldlM Event.exec (sampleVisible.machine allocateShadowStackGs) =
      some ((overwrite (visible m₁)).machine m₁.gs) := by
    rw [List.foldlM_cons, Option.bind_eq_bind, Event.exec, hm₁, Option.bind_some]
    rfl
  refine ⟨_, hm', ?_⟩
  rw [@exit_passes_iff sampleVisible [] [.code overwrite] true false _ _ (.code .nil) ⟨of_decide_eq_true rfl, trivial⟩ rfl
    hm']
  change ¬ (1 : Word) = 0
  decide

end ShadowStack

end Egalito.Code
