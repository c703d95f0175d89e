import Egalito.Code.Function
import Egalito.Code.Weaving
/-!
# `StackXOR`

`pass/stackxor.cpp` for x86-64, without keystone: the two instructions that XOR
the word at the stack pointer with the key behind `%fs`, and where the pass puts
them.
-/

open Egalito.Lib

namespace Egalito.Code.StackXOR

/-! ## The pass -/

/-- `mov %fs:xorOffset,%r11`, with the low byte of the offset. -/
def loadKeyBytes (xorOffset : BitVec 32) : List UInt8 :=
  [0x64, 0x4c, 0x8b, 0x1c, 0x25, UInt8.ofBitVec (xorOffset.setWidth 8), 0x00, 0x00, 0x00]

/-- `xor %r11,(%rsp)` -/
def xorBytes : List UInt8 := [0x4c, 0x31, 0x1c, 0x24]

def xorCode (xorOffset : BitVec 32) : List Semantic := [ofBytes (loadKeyBytes xorOffset), ofBytes xorBytes]

/-- Without an instruction they are appended to the block, which is then empty. Only keystone has a use for
`beforeJumpTo`. -/
def addInstructions (xorOffset : BitVec 32) (b : Body) (instruction : Option Nat) (_beforeJumpTo : Bool) : Body :=
  match instruction, b.blocks with
  | some instruction, _ => b.insertAll instruction (xorCode xorOffset) false
  | none, block1 :: blocks =>
    ⟨(block1 ++ b.newInstructions (xorCode xorOffset)) :: blocks, b.nextId + (xorCode xorOffset).length⟩
  | none, [] => b

def isControlFlow : Semantic → Bool
  | .returnInstruction | .controlFlow _ _ | .indirectJump _ _ | .indirectCall | .dataLinkedControlFlow _ => true
  | _ => false

/-- The conditions of `visit(Instruction *)`, by the classes it asks for in turn. -/
def xorsAt : Semantic → Bool
  | .returnInstruction => true
  | .controlFlow mnemonic link => mnemonic ≠ .callq ∧ link.isExternalJump
  | .indirectJump jumpTables _ => !Semantic.isForJumpTable jumpTables
  | s => isControlFlow s

def visitInstruction (xorOffset : BitVec 32) (b : Body) (instruction : Instruction) : Body :=
  if xorsAt instruction.2 then addInstructions xorOffset b (some instruction.1) true else b

/-- There must be a first block. The loops over a block end at what it held before, where only its last instruction
can be one for control flow. -/
def visitFunction (xorOffset : BitVec 32) (b : Body) : Option Body := do
  let block1 ← b.blocks.head?
  let b := addInstructions xorOffset b (block1.head?.map (·.1)) false
  return b.code.foldl (visitInstruction xorOffset) b

/-! ## The machine -/

/-- With the memory behind `%fs`. -/
structure Machine extends Code.Machine where
  fs : Word → Word

inductive Op
  /-- `mov %fs:disp,%r11` -/
  | loadKey (disp : Word)
  /-- `xor %r11,(%rsp)` -/
  | xorReturn
deriving DecidableEq, Repr

/-- As far as the pass uses the encodings. -/
def decode : List UInt8 → Option Op
  | [0x64, 0x4c, 0x8b, 0x1c, 0x25, d₀, d₁, d₂, d₃] => some (.loadKey (imm32 d₀ d₁ d₂ d₃))
  | [0x4c, 0x31, 0x1c, 0x24] => some .xorReturn
  | _ => none

def logicFlags (v : Word) : Flags where
  zero := v = 0
  carry := false
  sign := v.msb
  overflow := false

def Op.exec (m : Machine) : Op → Machine
  | loadKey disp => { m with toMachine := m.setReg r11 (m.fs disp) }
  | xorReturn =>
    let v := m.stack (m.regs rsp) ^^^ m.regs r11
    { m with stack := Function.update m.stack (m.regs rsp) v, flags := logicFlags v }

@[simp]
theorem loadKey_rsp (m : Machine) (disp : Word) : (Op.exec m (.loadKey disp)).regs rsp = m.regs rsp := by
  have hne : rsp ≠ r11 := by decide
  simp [Op.exec, Code.Machine.setReg, hne]

@[simp]
theorem loadKey_key (m : Machine) (disp : Word) : (Op.exec m (.loadKey disp)).regs r11 = m.fs disp := by
  simp [Op.exec, Code.Machine.setReg]

@[simp]
theorem loadKey_stack (m : Machine) (disp : Word) : (Op.exec m (.loadKey disp)).stack = m.stack := rfl

@[simp]
theorem xorReturn_regs (m : Machine) : (Op.exec m .xorReturn).regs = m.regs := rfl

@[simp]
theorem xorReturn_slot (m : Machine) :
    (Op.exec m .xorReturn).stack (m.regs rsp) = m.stack (m.regs rsp) ^^^ m.regs r11 := by
  simp [Op.exec]

/-- What an inserted instruction does here. -/
def op : Semantic → Option Op
  | .inserted (.bytes code) => decode code
  | _ => none

/-- One instruction. One of the original does anything, but keeps the key and the word in the slot. -/
def Step (slot : Word) (s : Semantic) (m m' : Machine) : Prop :=
  match op s with
  | some o => m' = o.exec m
  | none => m'.stack slot = m.stack slot ∧ m'.fs = m.fs

/-- A run with the machine in front of each instruction. The stack pointer is at the slot again where the function
is left. -/
def Executes (slot : Word) : List (Machine × Semantic) → Prop
  | [] => True
  | [(m, _)] => m.regs rsp = slot
  | (m, s) :: (m', s') :: t => Step slot s m m' ∧ Executes slot ((m', s') :: t)

/-- From the entry, where the stack pointer is at the return address. -/
def Execution (t : List (Machine × Semantic)) : Prop := ∃ m ∈ t.head?, Executes (m.1.regs rsp) t

/-- Where in a run inserted code writes to the stack, at which address, and what it is XORed with. -/
def writesFrom (i : Nat) : List (Machine × Semantic) → List (Nat × Word × Word)
  | [] => []
  | (m, s) :: t =>
    (if op s = some .xorReturn then [(i, m.regs rsp, m.regs r11)] else []) ++ writesFrom (i + 1) t

/-- The return address is XORed with the key at the entry and immediately before the function is left, nothing else
is, and then it is what it was. -/
structure Protected (xorOffset : BitVec 32) (t : List (Machine × Semantic)) : Prop where
  writes : ∃ m ∈ t.head?, writesFrom 0 t = [(1, m.1.regs rsp, m.1.fs (xorOffset.signExtend 64)),
    (t.length - 2, m.1.regs rsp, m.1.fs (xorOffset.signExtend 64))]
  returns : ∀ m ∈ t.head?, ∀ m' ∈ t.getLast?, m'.1.stack (m'.1.regs rsp) = m.1.stack (m.1.regs rsp)

/-! ## Paths through a function with `StackXOR`

The code in front of an instruction is passed by the jumps to it, and is executed
for a call that comes back and for a conditional jump that is not taken too. So
the return address is XORed twice on a path only if nothing but its end is
instrumented, and that is reached from above.
-/

variable {xorOffset : BitVec 32} {f : Function} {x : Instruction} {t : List (Arrival × Instruction)}
  {tr tr' : List (Machine × Semantic)} {m : Machine} {slot : Word} {ops : List Semantic}

/-! ## The pass weaves -/

def weave (xorOffset : BitVec 32) : Weave Nat Semantic where
  top := xorCode xorOffset
  before := fun x => if xorsAt x.2 then xorCode xorOffset else []
  atLabel := fun _ => []

theorem xorCode_inserted : ∀ s ∈ xorCode xorOffset, s.isInserted = true ∧ xorsAt s = false := by
  simp [xorCode, ofBytes, Semantic.isInserted, xorsAt, isControlFlow]

theorem weave_inserted (xorOffset : BitVec 32) : OnlyInserted (weave xorOffset) := by
  refine ⟨fun s hs => (xorCode_inserted s hs).1, fun x s hs => ?_, fun _ _ hs => nomatch hs⟩
  change s ∈ (if xorsAt x.2 = true then xorCode xorOffset else []) at hs
  split_ifs at hs
  · exact (xorCode_inserted s hs).1
  · cases hs

theorem visitInstruction_edits (xorOffset : BitVec 32) (N : Nat) :
    Edits (weave xorOffset) N (N ≤ ·.nextId) (visitInstruction xorOffset) := by
  rintro b ⟨p, s⟩ A B hcode hA hB hx hnext
  unfold visitInstruction
  by_cases hxors : xorsAt s = true
  · rw [if_pos hxors]
    have hnew : ∀ y ∈ b.newInstructions (xorCode xorOffset), N ≤ y.1 := fun y hy => hnext.trans (mem_newInstructions hy)
    refine ⟨hnext.trans (Nat.le_add_right _ _), b.newInstructions (xorCode xorOffset), [], p,
      piece_before ?_ rfl hnew, ?_⟩
    · rw [newInstructions_ops]
      exact (if_pos hxors).symm
    · change (b.insertAll p (xorCode xorOffset) false).code = _
      rw [code_insertAll, hcode]
      refine insertAllBefore_front hA hB fun y hy => ?_
      have := hnew y hy
      change p < N at hx
      omega
  · rw [if_neg hxors]
    exact ⟨hnext, [], [], p, piece_before (if_neg hxors).symm rfl (fun _ h => nomatch h), hcode⟩

/-- The code at the entry goes in front of all the code, also where the first block is empty. -/
theorem entry_code {block1 : List Instruction} {blocks : List (List Instruction)} (hblocks : f.blocks = block1 :: blocks) :
    (addInstructions xorOffset f.toBody (block1.head?.map (·.1)) false).code =
      f.newInstructions (xorCode xorOffset) ++ f.code ∧
    f.nextId ≤ (addInstructions xorOffset f.toBody (block1.head?.map (·.1)) false).nextId := by
  have hcode : f.code = block1 ++ blocks.flatten := by rw [Body.code, hblocks, List.flatten_cons]
  cases block1 with
  | nil =>
    unfold addInstructions
    simp only [List.head?_nil, Option.map_none, hblocks]
    exact ⟨by rw [hcode]; rfl, Nat.le_add_right _ _⟩
  | cons y block =>
    refine ⟨?_, Nat.le_add_right _ _⟩
    have hy : y.1 < f.nextId := f.ids y (by rw [← Body.code, hcode]; exact List.mem_cons_self)
    have hrest : ∀ z ∈ block ++ blocks.flatten, z.1 ≠ y.1 := by
      have hnodup := f.nodup
      rw [← Body.code, hcode, List.cons_append, List.map_cons, List.nodup_cons] at hnodup
      exact fun z hz heq => hnodup.1 (heq ▸ List.mem_map_of_mem hz)
    change (f.toBody.insertAll y.1 (xorCode xorOffset) false).code = _
    rw [code_insertAll, hcode]
    refine insertAllBefore_front (A := []) (fun _ h => nomatch h) hrest fun z hz => ?_
    have := mem_newInstructions hz
    omega

theorem visit_inserted {news : List Instruction} (h : ∀ y ∈ news, xorsAt y.2 = false) (b : Body) :
    news.foldl (visitInstruction xorOffset) b = b := by
  induction news with
  | nil => rfl
  | cons y news ih =>
    have hy : visitInstruction xorOffset b y = b := by
      unfold visitInstruction
      rw [if_neg (by simp [h y List.mem_cons_self])]
    rw [List.foldl_cons, hy]
    exact ih fun y hy => h y (List.mem_cons_of_mem _ hy)

/-- The runs of the function are those of the original with the code written in. -/
theorem visit_runs (xorOffset : BitVec 32) (f : Function) (hblocks : f.blocks ≠ []) :
    ∃ b, visitFunction xorOffset f.toBody = some b ∧ ∀ ops, Runs Semantic.next b.code b.code ops ↔
      ∃ t, Complete Semantic.next f.code t ∧ t.flatMap (weave xorOffset).expand = ops := by
  obtain ⟨block1, blocks, heq⟩ := List.exists_cons_of_ne_nil hblocks
  obtain ⟨hcode, hnext⟩ := @entry_code xorOffset f block1 blocks heq
  have hops := newInstructions_ops (b := f.toBody) (xorCode xorOffset)
  have hnew : ∀ y ∈ f.newInstructions (xorCode xorOffset), y.2 ∈ xorCode xorOffset :=
    fun y hy => hops ▸ List.mem_map_of_mem hy
  refine ⟨_, ?_, runs_edited (visitInstruction_edits xorOffset f.nextId) hcode hnext hops
    (fun y hy => mem_newInstructions hy) (weave_inserted xorOffset)⟩
  unfold visitFunction
  rw [heq]
  change some (List.foldl _ _ (addInstructions xorOffset f.toBody (block1.head?.map (·.1)) false).code) = _
  rw [hcode, List.foldl_append, visit_inserted fun y hy => (xorCode_inserted _ (hnew y hy)).2]

/-! ## The paths -/

/-- What is executed on a path of the original. -/
abbrev executed (xorOffset : BitVec 32) (t : List (Arrival × Instruction)) : List Semantic :=
  t.flatMap (weave xorOffset).expand

/-- Whether the code in front of the instruction is executed with it. -/
def passes (y : Arrival × Instruction) : Bool := xorsAt y.2.2 && y.1 ≠ .jump

/-- The offset of the key is the byte in the instruction. The last instruction of the path, and no other, is one that
the code is in front of and that is not reached by a jump, and no jump goes to the function itself. -/
structure Undisturbed (xorOffset : BitVec 32) (t : List (Arrival × Instruction)) : Prop where
  fits : xorOffset.toNat < 256
  once : ∀ y ∈ t.tail, y.1 ≠ .start
  exit : ∃ body last, t = body ++ [last] ∧ (∀ y ∈ body, passes y = false) ∧ passes last = true

theorem expand_eq (y : Arrival × Instruction) : (weave xorOffset).expand y =
    (if y.1 = .start then xorCode xorOffset else []) ++ ((if passes y then xorCode xorOffset else []) ++ [y.2.2]) := by
  obtain ⟨a, x⟩ := y
  cases a <;> by_cases hxors : xorsAt x.2 = true <;> simp [Weave.expand, weave, passes, hxors]

theorem op_original {s : Semantic} (h : s.isInserted = false) : op s = none := by
  cases s with
  | inserted i => cases h
  | _ => rfl

/-- The displacement is the offset exactly if that is a byte. -/
theorem displacement_eq_iff : imm32 (UInt8.ofBitVec (xorOffset.setWidth 8)) 0 0 0 = xorOffset.signExtend 64 ↔
    xorOffset.toNat < 256 := by
  have hbyte : imm32 (UInt8.ofBitVec (xorOffset.setWidth 8)) 0 0 0 = ((xorOffset.setWidth 8).setWidth 32).signExtend 64 := by
    unfold imm32
    congr 1
    rw [BitVec.setWidth_eq_append (by decide : 8 ≤ 32)]
    rfl
  rw [hbyte]
  constructor
  · intro h
    have hint := congrArg BitVec.toInt h
    rw [BitVec.toInt_signExtend_of_le (by decide), BitVec.toInt_signExtend_of_le (by decide)] at hint
    have hnat := congrArg BitVec.toNat (BitVec.eq_of_toInt_eq hint)
    simp at hnat
    omega
  · intro h
    congr 1
    apply BitVec.eq_of_toNat_eq
    simp
    omega

/-! ## What is written -/

theorem writesFrom_append (i : Nat) : writesFrom i (tr ++ tr') = writesFrom i tr ++ writesFrom (i + tr.length) tr' := by
  induction tr generalizing i with
  | nil => rfl
  | cons p tr ih => simp [writesFrom, ih, Nat.add_assoc, Nat.add_comm 1]

theorem length_writesFrom (i : Nat) : (writesFrom i tr).length = (tr.map (·.2)).countP (op · = some .xorReturn) := by
  induction tr generalizing i with
  | nil => rfl
  | cons p tr ih =>
    rw [writesFrom, List.length_append, ih, List.map_cons, List.countP_cons, Nat.add_comm]
    by_cases hp : op p.2 = some .xorReturn <;> simp [hp]

theorem mem_writesFrom {i : Nat} {w : Nat × Word × Word} (h : w ∈ writesFrom i tr) :
    ∃ n s, w.1 = i + n ∧ (tr.map (·.2))[n]? = some s ∧ op s = some .xorReturn := by
  induction tr generalizing i with
  | nil => cases h
  | cons p tr ih =>
    rcases List.mem_append.1 h with h | h
    · split_ifs at h with hp
      · rw [List.mem_singleton.1 h]
        exact ⟨0, p.2, rfl, rfl, hp⟩
      · cases h
    · obtain ⟨n, s, hi, hs, hop⟩ := ih h
      exact ⟨n + 1, s, by omega, hs, hop⟩

theorem writesFrom_original (i : Nat) (h : ∀ p ∈ tr, op p.2 = none) : writesFrom i tr = [] := by
  induction tr generalizing i with
  | nil => rfl
  | cons p tr ih =>
    rw [List.forall_mem_cons] at h
    rw [writesFrom, h.1, if_neg (by simp), ih (i + 1) h.2]
    rfl

/-- The run on which the original code does nothing. -/
def idle (m : Machine) : List Semantic → List (Machine × Semantic)
  | [] => []
  | s :: ops => (m, s) :: idle ((op s).elim m (·.exec m)) ops

theorem idle_ops (m : Machine) (ops : List Semantic) : (idle m ops).map (·.2) = ops := by
  induction ops generalizing m with
  | nil => rfl
  | cons s ops ih => rw [idle, List.map_cons, ih]

theorem idle_executes (h : m.regs rsp = slot) (ops : List Semantic) : Executes slot (idle m ops) := by
  induction ops generalizing m with
  | nil => trivial
  | cons s ops ih =>
    have hrsp : ((op s).elim m (·.exec m)).regs rsp = slot := by
      cases op s with
      | none => exact h
      | some o => cases o with
        | loadKey disp => exact (loadKey_rsp m disp).trans h
        | xorReturn => exact h
    cases ops with
    | nil => exact h
    | cons s' ops =>
      refine ⟨?_, ih hrsp⟩
      unfold Step
      cases op s with
      | none => exact ⟨rfl, rfl⟩
      | some o => rfl

/-! ## Instrumented paths -/

/-- What leaves without code in front of it always leaves. -/
theorem next_eq_leave {s : Semantic} (h : s.isInserted = false) (hleave : .leave ∈ s.next) (hxors : xorsAt s = false) :
    s.next = [.leave] := by
  have hexternal : ∀ link, Semantic.goes link = .leave → link.isExternalJump = true := by
    intro link hlink
    cases link <;> first | rfl | cases hlink
  cases s with
  | isolated i =>
    simp only [Semantic.next] at hleave ⊢
    split_ifs at hleave ⊢ with hreturns
    · rfl
    · simp at hleave
  | controlFlow mnemonic link =>
    cases mnemonic <;> simp [Semantic.next, xorsAt] at hleave hxors
    · rw [hexternal link hleave.symm] at hxors
      cases hxors
    · rw [hexternal link hleave.symm] at hxors
      cases hxors
  | indirectJump jumpTables described =>
    simp only [Semantic.next] at hleave
    split_ifs at hleave with htable
    · simp at hleave
    · simp [xorsAt, htable] at hxors
  | inserted i => cases h
  | _ => simp [xorsAt, isControlFlow] at hxors

theorem count_xor (h : Original t) : (executed xorOffset t).countP (op · = some .xorReturn) =
    t.countP (·.1 = .start) + t.countP passes := by
  have hcode : (xorCode xorOffset).countP (op · = some .xorReturn) = 1 := rfl
  induction t with
  | nil => rfl
  | cons y t ih =>
    rw [Original, List.forall_mem_cons] at h
    have hy : [y.2.2].countP (op · = some .xorReturn) = 0 := by simp [op_original h.1]
    rw [executed, List.flatMap_cons, List.countP_append, ih h.2, expand_eq, List.countP_append, List.countP_append,
      hy, List.countP_cons, List.countP_cons]
    by_cases hstart : y.1 = .start <;> by_cases hpasses : passes y = true <;> simp [hstart, hpasses, hcode] <;> omega

theorem executed_body {body : List (Arrival × Instruction)} (honce : ∀ y ∈ body, y.1 ≠ .start)
    (hpasses : ∀ y ∈ body, passes y = false) : executed xorOffset body = body.map (·.2.2) := by
  rw [executed, ← List.flatMap_pure_eq_map]
  refine List.flatMap_congr fun y hy => ?_
  rw [expand_eq, if_neg (honce y hy), hpasses y hy]
  rfl

/-- An undisturbed path: the code at both ends. -/
theorem Undisturbed.executed_eq (h : Undisturbed xorOffset t) (hstart : ∃ x t', t = (.start, x) :: t') :
    ∃ body last, t = body ++ [last] ∧
      executed xorOffset t = xorCode xorOffset ++ (body.map (·.2.2) ++ (xorCode xorOffset ++ [last.2.2])) := by
  obtain ⟨x, t', rfl⟩ := hstart
  obtain ⟨-, honce, body, last, hsplit, hbody, hlast⟩ := h
  refine ⟨body, last, hsplit, ?_⟩
  cases body with
  | nil =>
    obtain ⟨rfl, rfl⟩ := List.cons.inj hsplit
    rw [executed, List.flatMap_singleton, expand_eq, if_pos rfl, if_pos hlast]
    rfl
  | cons y body =>
    obtain ⟨rfl, rfl⟩ := List.cons.inj hsplit
    rw [List.forall_mem_cons] at hbody
    have hends : last.1 ≠ .start := honce last (by simp)
    rw [List.append_eq, executed, List.flatMap_cons, List.flatMap_append, List.flatMap_singleton, expand_eq, expand_eq,
      if_pos rfl, hbody.1, if_neg hends, if_pos hlast]
    have hmiddle : body.flatMap (weave xorOffset).expand = body.map (·.2.2) :=
      executed_body (fun z hz => honce z (List.mem_append_left _ hz)) hbody.2
    rw [hmiddle]
    simp

/-! ## Runs of undisturbed paths -/

theorem op_loadKey : op (ofBytes (loadKeyBytes xorOffset)) =
    some (.loadKey (imm32 (UInt8.ofBitVec (xorOffset.setWidth 8)) 0 0 0)) := rfl

theorem op_xor : op (ofBytes xorBytes) = some .xorReturn := rfl

theorem map_xorCode (h : tr.map (·.2) = xorCode xorOffset) :
    ∃ m m', tr = [(m, ofBytes (loadKeyBytes xorOffset)), (m', ofBytes xorBytes)] := by
  obtain ⟨⟨m, s⟩, tr₁, rfl, rfl, h₁⟩ := List.map_eq_cons_iff.1 h
  obtain ⟨⟨m', s'⟩, tr₂, rfl, rfl, h₂⟩ := List.map_eq_cons_iff.1 h₁
  obtain rfl := List.map_eq_nil_iff.1 h₂
  exact ⟨m, m', rfl⟩

/-- Original code keeps the slot and the key. -/
theorem Executes.original {body : List (Machine × Semantic)} {p : Machine × Semantic} (h : Executes slot (body ++ p :: tr))
    (hbody : ∀ q ∈ body, op q.2 = none) : Executes slot (p :: tr) ∧
      ∀ q ∈ (body ++ [p]).head?, p.1.stack slot = q.1.stack slot ∧ p.1.fs = q.1.fs := by
  induction body with
  | nil =>
    refine ⟨h, fun q hq => ?_⟩
    obtain rfl : p = q := by simpa using hq
    exact ⟨rfl, rfl⟩
  | cons q body ih =>
    rw [List.forall_mem_cons] at hbody
    have hstep : ∀ r ∈ (body ++ [p]).head?, Step slot q.2 q.1 r.1 ∧ Executes slot (body ++ p :: tr) := by
      intro r hr
      cases body with
      | nil =>
        obtain rfl : p = r := by simpa using hr
        exact h
      | cons r' body =>
        obtain rfl : r' = r := by simpa using hr
        exact h
    obtain ⟨r, hr⟩ : ∃ r, (body ++ [p]).head? = some r := by
      cases body <;> exact ⟨_, rfl⟩
    obtain ⟨hqr, hrest⟩ := hstep r hr
    obtain ⟨htail, hkeep⟩ := ih hrest hbody.2
    obtain ⟨hstack, hfs⟩ := hkeep r hr
    unfold Step at hqr
    rw [hbody.1] at hqr
    refine ⟨htail, fun q' hq' => ?_⟩
    obtain rfl : q = q' := by simpa using hq'
    exact ⟨hstack.trans hqr.1, hfs.trans hqr.2⟩

/-- The two instructions. -/
theorem Executes.xor {m' : Machine} {p : Machine × Semantic}
    (h : Executes slot ((m, ofBytes (loadKeyBytes xorOffset)) :: (m', ofBytes xorBytes) :: p :: tr)) :
    m'.regs rsp = m.regs rsp ∧ m'.regs r11 = m.fs (imm32 (UInt8.ofBitVec (xorOffset.setWidth 8)) 0 0 0) ∧
      p.1.regs rsp = m.regs rsp ∧ p.1.fs = m.fs ∧
      p.1.stack (m.regs rsp) = m.stack (m.regs rsp) ^^^ m'.regs r11 ∧ Executes slot (p :: tr) := by
  obtain ⟨rfl, hp, hrest⟩ := h
  obtain ⟨p, s⟩ := p
  obtain rfl : p = _ := hp
  have hrsp := loadKey_rsp m (imm32 (UInt8.ofBitVec (xorOffset.setWidth 8)) 0 0 0)
  have hslot := xorReturn_slot (Op.exec m (.loadKey (imm32 (UInt8.ofBitVec (xorOffset.setWidth 8)) 0 0 0)))
  rw [hrsp, loadKey_stack] at hslot
  exact ⟨hrsp, loadKey_key m _, hrsp, rfl, hslot, hrest⟩

theorem Undisturbed.protected (h : Undisturbed xorOffset t) (hstart : ∃ x t', t = (.start, x) :: t') (ht : Original t)
    (htr : tr.map (·.2) = executed xorOffset t) (hexec : Execution tr) : Protected xorOffset tr := by
  obtain ⟨body, last, hsplit, hops⟩ := h.executed_eq hstart
  rw [hops] at htr
  obtain ⟨_, _, rfl, hcode, hrest⟩ := List.map_eq_append_iff.1 htr
  obtain ⟨mid, _, rfl, hmid, hrest'⟩ := List.map_eq_append_iff.1 hrest
  obtain ⟨_, _, rfl, hcode', hend⟩ := List.map_eq_append_iff.1 hrest'
  obtain ⟨m₀, m₁, rfl⟩ := map_xorCode hcode
  obtain ⟨m₂, m₃, rfl⟩ := map_xorCode hcode'
  obtain ⟨⟨m₄, s⟩, _, rfl, hs, hnil⟩ := List.map_eq_cons_iff.1 hend
  obtain rfl := List.map_eq_nil_iff.1 hnil
  have horig : ∀ q ∈ mid, op q.2 = none := by
    intro q hq
    have hmem : q.2 ∈ body.map (·.2.2) := hmid ▸ List.mem_map_of_mem hq
    obtain ⟨y, hy, heq⟩ := List.mem_map.1 hmem
    rw [← heq]
    exact op_original (ht y (hsplit ▸ List.mem_append_left _ hy))
  have hop : op s = none := by
    rw [show s = last.2.2 from hs]
    exact op_original (ht last (hsplit ▸ List.mem_append_right _ (List.mem_singleton_self _)))
  obtain ⟨m, hm, hexec⟩ := hexec
  obtain rfl : _ = m := Option.some.inj hm
  -- the entry, then the original code up to the exit
  obtain ⟨p, rest, hp⟩ : ∃ p rest, mid ++ [(m₂, ofBytes (loadKeyBytes xorOffset))] = p :: rest :=
    List.exists_cons_of_ne_nil (by simp)
  have hmidlist : mid ++ ([(m₂, ofBytes (loadKeyBytes xorOffset)), (m₃, ofBytes xorBytes)] ++ [(m₄, s)]) =
      p :: (rest ++ [(m₃, ofBytes xorBytes), (m₄, s)]) := by
    rw [← List.cons_append, ← hp]
    simp
  have hentry : Executes (m₀.regs rsp) ((m₀, ofBytes (loadKeyBytes xorOffset)) :: (m₁, ofBytes xorBytes) :: p ::
      (rest ++ [(m₃, ofBytes xorBytes), (m₄, s)])) := by
    rw [hmidlist] at hexec
    exact hexec
  obtain ⟨hrsp₁, hkey₁, -, hfs, hslot, hmidexec⟩ := hentry.xor
  rw [← hmidlist] at hmidexec
  obtain ⟨hexit, hkeep⟩ := hmidexec.original horig
  obtain ⟨hstack₂, hfs₂⟩ := hkeep p (by rw [hp]; rfl)
  obtain ⟨hrsp₃, hkey₃, hrsp₄, -, hslot₄, hleave⟩ := Executes.xor hexit
  have hrsp₂ : m₂.regs rsp = m₀.regs rsp := hrsp₄.symm.trans hleave
  have hkey := displacement_eq_iff.2 h.fits
  rw [hkey] at hkey₁ hkey₃
  rw [hfs₂, hfs] at hkey₃
  refine ⟨⟨_, rfl, ?_⟩, ?_⟩
  · have hentry' : writesFrom 0 [(m₀, ofBytes (loadKeyBytes xorOffset)), (m₁, ofBytes xorBytes)] =
        [(1, m₁.regs rsp, m₁.regs r11)] := rfl
    have hexit' : ∀ i, writesFrom i ([(m₂, ofBytes (loadKeyBytes xorOffset)), (m₃, ofBytes xorBytes)] ++ [(m₄, s)]) =
        [(i + 1, m₃.regs rsp, m₃.regs r11)] := by
      intro i
      simp only [List.cons_append, List.nil_append, writesFrom, hop]
      rfl
    rw [writesFrom_append, writesFrom_append, hentry', writesFrom_original _ horig, hexit', hrsp₁, hkey₁, hrsp₃, hkey₃,
      hrsp₂]
    simp
    omega
  · intro q hq q' hq'
    obtain rfl : _ = q := Option.some.inj hq
    obtain rfl : (m₄, s) = q' := by simpa [List.getLast?_append, List.getLast?_cons] using hq'
    change m₄.stack (m₄.regs rsp) = m₀.stack (m₀.regs rsp)
    rw [hrsp₄, hslot₄, hkey₃, hrsp₂, hstack₂, hslot, hkey₁, BitVec.xor_assoc, BitVec.xor_self, BitVec.xor_zero]

/-! ## Other paths -/

/-- The machine on which `%fs` holds its own offsets. -/
def offsetMachine : Machine where
  regs := fun _ => 0
  stack := fun _ => 0
  gs := fun _ => 0
  flags := ⟨false, false, false, false⟩
  fs := id

/-- A path whose last instruction has no code in front of it does not end with a write. -/
theorem not_written_last (hc : Complete Semantic.next f.code t) {body : List (Arrival × Instruction)}
    {last : Arrival × Instruction} (hsplit : t = body ++ [last]) (hpasses : passes last ≠ true) (hstart : last.1 ≠ .start)
    {s : Semantic} (hs : (executed xorOffset t)[(executed xorOffset t).length - 2]? = some s) : op s = none := by
  have ht : Original t := complete_original hc
  obtain ⟨x, t', hfirst⟩ := hc.eq_cons
  rcases List.eq_nil_or_concat body with rfl | ⟨body', y, rfl⟩
  · rw [hfirst, List.nil_append, List.cons.injEq] at hsplit
    exact absurd (congrArg Prod.fst hsplit.1).symm hstart
  · obtain ⟨front, hfront⟩ : ∃ front, executed xorOffset t = front ++ [y.2.2, last.2.2] := by
      refine ⟨executed xorOffset body' ++ ((if y.1 = .start then xorCode xorOffset else []) ++
        if passes y then xorCode xorOffset else []), ?_⟩
      rw [hsplit, executed, List.flatMap_append, List.concat_eq_append, List.flatMap_append, List.flatMap_singleton,
        List.flatMap_singleton, expand_eq, expand_eq, if_neg hstart, if_neg hpasses]
      simp
    rw [hfront] at hs
    obtain rfl : y.2.2 = s := by simpa using hs
    exact op_original (ht y (by simp [hsplit]))

/-- A path that starts again does not end there without the code. -/
theorem not_restarted_last (hc : Complete Semantic.next f.code t) {body : List (Arrival × Instruction)}
    {last : Arrival × Instruction} (hsplit : t = body ++ [last]) (hpasses : passes last ≠ true) (hstart : last.1 = .start) :
    body = [] := by
  have ht : Original t := complete_original hc
  cases body with
  | nil => rfl
  | cons y body =>
    have hhead := hc.restarts last (by simp [hsplit]) hstart
    obtain ⟨rest, hcode⟩ := List.head?_eq_some_iff.1 hhead
    have hxors : xorsAt last.2.2 = false := by simpa [passes, hstart] using hpasses
    have hleave := hc.last_leaves last (by rw [hsplit]; exact List.getLast?_concat)
    have hnext := next_eq_leave (ht last (by simp [hsplit])) hleave hxors
    have hends := hc
    unfold Complete at hends
    rw [hcode] at hends
    have := congrArg List.length ((hends.ends hnext).symm.trans hsplit)
    simp at this

theorem Protected.undisturbed (hc : Complete Semantic.next f.code t)
    (h : Protected xorOffset (idle offsetMachine (executed xorOffset t))) : Undisturbed xorOffset t := by
  have ht : Original t := complete_original hc
  obtain ⟨x, t', hstart⟩ := hc.eq_cons
  obtain ⟨m, hm, hwrites⟩ := h.writes
  have hcount : t.countP (·.1 = .start) + t.countP passes = 2 := by
    rw [← @count_xor xorOffset t ht, ← idle_ops offsetMachine (executed xorOffset t), ← length_writesFrom 0,
      hwrites]
    rfl
  have hfirst : t.countP (·.1 = .start) = t'.countP (·.1 = .start) + 1 := by
    rw [hstart, List.countP_cons_of_pos (by rfl)]
  obtain ⟨body, last, hsplit⟩ : ∃ body last, t = body ++ [last] := by
    rcases List.eq_nil_or_concat t with rfl | ⟨body, last, rfl⟩
    · cases hstart
    · exact ⟨body, last, List.concat_eq_append⟩
  have hlastcount : t.countP passes = body.countP passes + if passes last then 1 else 0 := by
    rw [hsplit, List.countP_append, List.countP_singleton]
  have hpasses : passes last = true := by
    by_contra hpasses
    rw [if_neg hpasses] at hlastcount
    by_cases hagain : last.1 = .start
    · obtain rfl := not_restarted_last hc hsplit hpasses hagain
      rw [hsplit] at hcount
      simp [hagain, hpasses] at hcount
    · have hmem : (((idle offsetMachine (executed xorOffset t)).length - 2, m.1.regs rsp,
          m.1.fs (xorOffset.signExtend 64)) : Nat × Word × Word) ∈ writesFrom 0 (idle offsetMachine (executed xorOffset t)) := by
        rw [hwrites]
        simp
      obtain ⟨n, s, hn, hs, hop⟩ := mem_writesFrom hmem
      have hlength : (idle offsetMachine (executed xorOffset t)).length = (executed xorOffset t).length := by
        rw [← List.length_map (·.2), idle_ops]
      rw [idle_ops] at hs
      rw [hlength, Nat.zero_add] at hn
      rw [← show _ = n from hn] at hs
      rw [not_written_last hc hsplit hpasses hagain hs] at hop
      cases hop
  rw [if_pos hpasses] at hlastcount
  have honce : t'.countP (·.1 = .start) = 0 := by omega
  have hbody : body.countP passes = 0 := by omega
  refine ⟨?_, ?_, body, last, hsplit, ?_, hpasses⟩
  · rw [← displacement_eq_iff]
    obtain ⟨rest, hops⟩ : ∃ rest, executed xorOffset t = ofBytes (loadKeyBytes xorOffset) :: ofBytes xorBytes :: rest := by
      refine ⟨(if passes (.start, x) then xorCode xorOffset else []) ++ [x.2] ++ executed xorOffset t', ?_⟩
      rw [hstart, executed, List.flatMap_cons, expand_eq, if_pos rfl]
      simp [xorCode]
    rw [hops] at hm hwrites
    obtain rfl : _ = m := Option.some.inj hm
    have hkey := congrArg (fun w => w.head?.map (·.2.2)) hwrites
    simpa [idle, writesFrom, op_loadKey, op_xor, offsetMachine] using hkey
  · rw [hstart, List.tail_cons]
    simpa using List.countP_eq_zero.1 honce
  · simpa using List.countP_eq_zero.1 hbody

/-- For every offset and function: the return address is protected in every execution after the pass exactly when the
function has a block and its paths are undisturbed. -/
theorem visitFunction_protected_iff (xorOffset : BitVec 32) (f : Function) :
    (∃ b, visitFunction xorOffset f.toBody = some b ∧
      ∀ tr, Runs Semantic.next b.code b.code (tr.map (·.2)) → Execution tr → Protected xorOffset tr) ↔
    f.blocks ≠ [] ∧ ∀ t, Complete Semantic.next f.code t → Undisturbed xorOffset t := by
  by_cases hblocks : f.blocks = []
  · have hnone : visitFunction xorOffset f.toBody = none := by
      unfold visitFunction
      rw [hblocks]
      rfl
    simp [hnone, hblocks]
  · obtain ⟨b, hb, hruns⟩ := visit_runs xorOffset f hblocks
    rw [hb]
    constructor
    · rintro ⟨b', hb', h⟩
      cases hb'
      refine ⟨hblocks, fun t ht => Protected.undisturbed ht (h _ ?_ ?_)⟩
      · rw [idle_ops]
        exact (hruns _).2 ⟨t, ht, rfl⟩
      · obtain ⟨x, t', rfl⟩ := ht.eq_cons
        have hne : executed xorOffset ((.start, x) :: t') ≠ [] := by simp [expand_eq]
        obtain ⟨s, rest, hops⟩ := List.exists_cons_of_ne_nil hne
        refine ⟨(offsetMachine, s), by rw [hops]; rfl, idle_executes rfl _⟩
    · rintro ⟨-, h⟩
      refine ⟨b, rfl, fun tr htr hexec => ?_⟩
      obtain ⟨t, ht, hops⟩ := (hruns _).1 htr
      exact (h t ht).protected ht.eq_cons (complete_original ht) hops.symm hexec

/-! ## A call that comes back -/

/-- `call *%rax`, `ret` -/
def callFunction : Function where
  blocks := [[(0, .indirectCall)], [(1, .returnInstruction)]]
  nextId := 2
  nodup := by decide
  ids := by decide
  targets := by simp [Semantic.next]
  original := by decide

/-- The code in front of the call XORs a third time. -/
theorem callFunction_not_protected : ¬ ∃ b, visitFunction 0x28 callFunction.toBody = some b ∧
    ∀ tr, Runs Semantic.next b.code b.code (tr.map (·.2)) → Execution tr → Protected 0x28 tr := by
  rintro ⟨b, hb, h⟩
  obtain ⟨b', hb', hruns⟩ := visit_runs 0x28 callFunction (by decide)
  obtain rfl : b = b' := Option.some.inj (hb.symm.trans hb')
  have hpath : Complete Semantic.next callFunction.code [(.start, 0, .indirectCall), (.fall, 1, .returnInstruction)] :=
    .fall (by decide) (.leave (by decide))
  have hexec : Execution (idle offsetMachine (executed 0x28 [(.start, 0, .indirectCall), (.fall, 1, .returnInstruction)])) :=
    ⟨_, rfl, idle_executes rfl _⟩
  have hundisturbed := Protected.undisturbed hpath (h _ (by rw [idle_ops]; exact (hruns _).2 ⟨_, hpath, rfl⟩) hexec)
  obtain ⟨body, last, hsplit, hbody, -⟩ := hundisturbed.exit
  have hmem : ((.start, 0, .indirectCall) : Arrival × Instruction) ∈ body := by
    cases body with
    | nil => cases hsplit
    | cons y body =>
      rw [List.cons_append, List.cons.injEq] at hsplit
      rw [hsplit.1]
      exact List.mem_cons_self
  have := hbody _ hmem
  revert this
  decide

end Egalito.Code.StackXOR
