import Egalito.Lib.Edit
import Egalito.Pass.Retpoline
/-!
# `EndbrEnforcePass`

`pass/endbrenforce.cpp`: in front of indirect jumps and calls the target is moved
to `%r11`, and the violation function is entered if there is no `endbr64` at it.
The jump or call itself then goes to `%r11`.
-/

namespace Egalito.EndbrEnforce

open Lib X86 Retpoline

/-! ## Functions -/

/-- The semantics that the pass tells apart, and those it makes. -/
inductive Semantic (I : Type)
  | indirectJump (o : IndirectOperand) (forJumpTable : Bool)
  | indirectCall (o : IndirectOperand)
  /-- A new indirect jump or call, by its assembly. -/
  | transfer (code : List UInt8)
  | bytes (code : List UInt8)
  /-- `jne` to the violation function. -/
  | violationJump
  | other (i : I)

variable {I : Type}

abbrev Instruction (I : Type) := Nat × Semantic I

/-- The blocks, with the first id that no object has. -/
structure Body (I : Type) where
  blocks : List (List (Instruction I))
  nextId : Nat

def Body.code (b : Body I) : List (Instruction I) := b.blocks.flatten

structure Function (I : Type) extends Body I where
  nodup : (blocks.flatten.map (·.1)).Nodup
  ids : ∀ x ∈ blocks.flatten, x.1 < nextId

/-! ## `ChunkMutator` -/

def Body.edit (b : Body I) (point : Nat) (f : Instruction I → List (Instruction I)) : Body I :=
  ⟨b.blocks.map (Lib.edit point f), b.nextId⟩

def Body.insertAfter (b : Body I) (point : Nat) (new : Instruction I) : Body I := b.edit point fun x => [x, new]

/-- The new object comes behind the point, and they swap their semantics. -/
def Body.insertBeforeJumpTo (b : Body I) (point : Nat) (new : Instruction I) : Body I :=
  b.edit point fun x => [(x.1, new.2), (new.1, x.2)]

def Body.setSemantic (b : Body I) (point : Nat) (s : Semantic I) : Body I := b.edit point fun x => [(x.1, s)]

def Body.withIds (b : Body I) (n : Nat) : Body I := ⟨b.blocks, b.nextId + n⟩

/-! ## The pass -/

/-- The bytes that a retpoline begins with. -/
def makeMovR11Instruction (o : IndirectOperand) : List UInt8 := movBytes o

/-- `cmpl $0xfa1e0ff3, (%r11)` -/
def compareBytes : List UInt8 := [0x41, 0x81, 0x3b, 0xf3, 0x0f, 0x1e, 0xfa]

/-- `jmpq *%r11`, `callq *%r11` -/
def transferBytes : Kind → List UInt8
  | .jump => [0x41, 0xff, 0xe3]
  | .call => [0x41, 0xff, 0xd3]

/-- The old object gets the move, so that the new one with the old semantic is what has to be changed. -/
def makeEnforcementCode (b : Body I) (point : Nat) (kind : Kind) (o : IndirectOperand) : Body I :=
  let movInstr := b.nextId
  let cmpInstr := b.nextId + 1
  let jne := b.nextId + 2
  let b := (b.withIds 3).insertBeforeJumpTo point (movInstr, .bytes (makeMovR11Instruction o))
  let b := b.insertAfter point (cmpInstr, .bytes compareBytes)
  let b := b.insertAfter cmpInstr (jne, .violationJump)
  b.setSemantic movInstr (.transfer (transferBytes kind))

/-- What `visit(Instruction *)` makes code for. -/
def instrumented : Semantic I → Option (Kind × IndirectOperand)
  | .indirectJump o forJumpTable => if forJumpTable then none else some (.jump, o)
  | .indirectCall o => some (.call, o)
  | _ => none

def visitInstruction (b : Body I) (instruction : Instruction I) : Body I :=
  match instrumented instruction.2 with
  | some (kind, o) => makeEnforcementCode b instruction.1 kind o
  | none => b

/-- The loops over a block end at what it held before, where only its last instruction can be an indirect one. -/
def visit (b : Body I) : Body I := b.code.foldl visitInstruction b

/-- `visit(Function *)` compares the name with these. -/
def skippedNames : List String := ["_dl_vdso_vsym", "_dl_addr", "__run_exit_handlers", "__longjmp", "____longjmp_chk"]

def visitFunction (name : String) (b : Body I) : Body I := if skippedNames.contains name then b else visit b

/-! ## The machine -/

/-- The instructions that this pass inserts. -/
inductive Op
  | plain (i : Instr)
  /-- `cmpl imm,(r)` -/
  | compare (r : Register) (imm : BitVec 32)
deriving DecidableEq, Repr

def decodeInserted : List UInt8 → Option Op
  | [0x41, 0x81, 0x3b, b₀, b₁, b₂, b₃] =>
    some (.compare r11 (b₃.toBitVec ++ b₂.toBitVec ++ b₁.toBitVec ++ b₀.toBitVec : BitVec 32))
  | code => (decode code).map .plain

/-- `ff /4` and `ff /2` of a register of the upper eight. -/
def decodeTransfer : List UInt8 → Option (Kind × IndirectOperand)
  | [0x41, 0xff, modrm] =>
    if modrm &&& 0xf8 = 0xe0 then some (.jump, .reg (registerOf true modrm))
    else if modrm &&& 0xf8 = 0xd0 then some (.call, .reg (registerOf true modrm))
    else none
  | _ => none

def load32 (mem : Memory) (a : Word) : BitVec 32 := readWord 4 mem a

/-- The flags of `a - b`. -/
def compareFlags (a b : BitVec 32) (f : Flags) : Flags where
  carry := a < b
  parity := (List.range 8).countP ((a - b).getLsbD ·) % 2 = 0
  auxiliary := (a ^^^ b ^^^ (a - b)).getLsbD 4
  zero := a = b
  sign := (a - b).msb
  direction := f.direction
  overflow := a.msb != b.msb && (a - b).msb != a.msb

def Op.exec (m : Machine) : Op → Machine
  | plain i => i.exec m
  | compare r imm => { m with flags := compareFlags (load32 m.mem (m.regs r)) imm m.flags }

/-- How an indirect jump or call is done: with the violation function, or by going to a target; `rest` is where a call
returns to. -/
inductive Outcome (I : Type)
  | violation
  | transfer (kind : Kind) (target : Word) (m : Machine) (rest : List (Instruction I))

/-- From a place in the code to the next indirect jump or call. -/
def run : List (Instruction I) → Machine → Option (Outcome I)
  | [], _ => none
  | (_, .bytes code) :: rest, m => (decodeInserted code).bind fun op => run rest (op.exec m)
  | (_, .violationJump) :: rest, m => if m.flags.zero then run rest m else some .violation
  | (_, .transfer code) :: rest, m => (decodeTransfer code).map fun t => .transfer t.1 (t.2.target m) m rest
  | (_, .indirectJump o _) :: rest, m => some (.transfer .jump (o.target m) m rest)
  | (_, .indirectCall o) :: rest, m => some (.transfer .call (o.target m) m rest)
  | (_, .other _) :: _, _ => none

/-- The bytes `f3 0f 1e fa`. -/
def endbr64 : BitVec 32 := 0xfa1e0ff3

/-- What the code has to do for an operand that stands for `target`: all memory and all registers but `r11` stay. -/
def Enforces (m : Machine) (kind : Kind) (target : Word) (rest : List (Instruction I)) : Option (Outcome I) → Prop
  | some .violation => load32 m.mem target ≠ endbr64
  | some (.transfer kind' target' m' rest') => load32 m.mem target = endbr64 ∧ kind' = kind ∧ target' = target ∧
      rest' = rest ∧ m'.mem = m.mem ∧ ∀ r, r ≠ r11 → m'.regs r = m.regs r
  | none => False

/-! ## Sites -/

/-- An instruction that is instrumented, in its function. -/
structure Site (f : Function I) where
  before : List (Instruction I)
  point : Nat
  semantic : Semantic I
  after : List (Instruction I)
  kind : Kind
  operand : IndirectOperand
  code_eq : f.code = before ++ (point, semantic) :: after
  instrumented_eq : instrumented semantic = some (kind, operand)

/-- The semantic that an instruction ends up with. -/
def replaced (s : Semantic I) : Semantic I :=
  match instrumented s with
  | some (kind, _) => .transfer (transferBytes kind)
  | none => s

/-- The place in the new code that stands for one in the old code: it is reached at the beginning, from the instruction
above and by jumps as that was. -/
structure At (f : Function I) (before after pos : List (Instruction I)) : Prop where
  start : before = [] → (visit f.toBody).code = pos
  fall : ∀ front x, before = front ++ [x] → ∃ front' l, (visit f.toBody).code = front' ++ (l, replaced x.2) :: pos
  jump : ∀ x ∈ after.head?, behind (visit f.toBody).code x.1 = pos

/-- How far the address that is loaded from is from the one that the operand stands for. -/
def addressError (o : MemoryOperand) (regs : Register → Word) : Word :=
  match o.base with
  | none => o.index.elim 0 fun i =>
      regs rdi + regs (if i.val < 8 then rdi else r15) * 8#64 - regs i * BitVec.ofNat 64 o.scale
  | some _ => if o.index = some r8 ∧ (o.scale = 1 ∨ o.scale = 4) then regs r8 * BitVec.ofNat 64 o.scale else 0

/-- The operand is moved from where it is. -/
def Right (regs : Register → Word) : IndirectOperand → Prop
  | .reg _ => True
  | .mem o => (o.base ≠ none ∨ o.index ≠ none) ∧ addressError o regs = 0

/-! ## Enforcement by operand

All the instrumented instructions end up behind four new ones, however they are
reached. What these load is what the operand stands for, or not: an index of 8
is scaled wrongly, and a base that is missing is taken for a register.
-/

variable {b : Body I} {f : Function I} {A B : List (Instruction I)} {p n : Nat} {s : Semantic I} {m : Machine}
  {kind : Kind} {o : IndirectOperand}

/-! ## Edits -/

theorem code_edit (g : Instruction I → List (Instruction I)) : (b.edit p g).code = edit p g b.code := flatten_edit g b.blocks

/-- What stands for an instruction, with new objects from `n` on. -/
def sequence (n p : Nat) (kind : Kind) (o : IndirectOperand) : List (Instruction I) :=
  [(p, .bytes (makeMovR11Instruction o)), (n + 1, .bytes compareBytes), (n + 2, .violationJump),
    (n, .transfer (transferBytes kind))]

theorem makeEnforcementCode_code (kind : Kind) (o : IndirectOperand) (hcode : b.code = A ++ (p, s) :: B) (hA : ∀ y ∈ A, y.1 ≠ p) (hB : ∀ y ∈ B, y.1 ≠ p)
    (hids : ∀ y ∈ b.code, y.1 < b.nextId) : (makeEnforcementCode b p kind o).code = A ++ (sequence b.nextId p kind o ++ B) ∧
      (makeEnforcementCode b p kind o).nextId = b.nextId + 3 := by
  have hold : ∀ y : Instruction I, y ∈ A ∨ y = (p, s) ∨ y ∈ B → y.1 < b.nextId := by
    intro y hy
    refine hids y ?_
    rw [hcode]
    simpa using hy
  have hp : p < b.nextId := hold (p, s) (.inr (.inl rfl))
  refine ⟨?_, rfl⟩
  have hfresh : ∀ k, ∀ y : Instruction I, y ∈ A ∨ y ∈ B → y.1 ≠ b.nextId + k := by
    intro k y hy
    have := hold y (hy.imp_right .inr)
    omega
  have h₁ : edit p (fun x => [(x.1, .bytes (makeMovR11Instruction o)), (b.nextId, x.2)]) b.code =
      A ++ (p, .bytes (makeMovR11Instruction o)) :: ((b.nextId, s) :: B) := by
    rw [hcode, edit_point hA hB]
    rfl
  have h₂ : edit p (fun x => [x, (b.nextId + 1, .bytes compareBytes)])
      (A ++ (p, .bytes (makeMovR11Instruction o)) :: ((b.nextId, s) :: B)) =
      (A ++ [(p, .bytes (makeMovR11Instruction o))]) ++ (b.nextId + 1, .bytes compareBytes) :: ((b.nextId, s) :: B) := by
    rw [edit_point hA]
    · simp
    · rintro y (_ | ⟨_, hy⟩)
      · exact hp.ne'
      · exact hB y hy
  have h₃ : edit (b.nextId + 1) (fun x => [x, (b.nextId + 2, .violationJump)])
      ((A ++ [(p, .bytes (makeMovR11Instruction o))]) ++ (b.nextId + 1, .bytes compareBytes) :: ((b.nextId, s) :: B)) =
      (A ++ [(p, .bytes (makeMovR11Instruction o)), (b.nextId + 1, .bytes compareBytes), (b.nextId + 2, .violationJump)]) ++
        (b.nextId, s) :: B := by
    rw [edit_point]
    · simp
    · intro y hy
      rcases List.mem_append.1 hy with hy | hy
      · exact hfresh 1 y (.inl hy)
      · rw [List.mem_singleton.1 hy]
        change p ≠ b.nextId + 1
        omega
    · rintro y (_ | ⟨_, hy⟩)
      · exact (Nat.lt_succ_self _).ne
      · exact hfresh 1 y (.inr hy)
  have h₄ : edit b.nextId (fun x => [(x.1, .transfer (transferBytes kind))])
      ((A ++ [(p, .bytes (makeMovR11Instruction o)), (b.nextId + 1, .bytes compareBytes), (b.nextId + 2, .violationJump)]) ++
        (b.nextId, s) :: B) = A ++ (sequence b.nextId p kind o ++ B) := by
    rw [edit_point]
    · simp [sequence]
    · intro y hy
      rcases List.mem_append.1 hy with hy | hy
      · exact hfresh 0 y (.inl hy)
      · simp only [List.mem_cons, List.not_mem_nil, or_false] at hy
        rcases hy with rfl | rfl | rfl
        · exact hp.ne
        · exact (Nat.lt_succ_self _).ne'
        · change b.nextId + 2 ≠ b.nextId
          omega
    · exact fun y hy => hfresh 0 y (.inr hy)
  unfold makeEnforcementCode
  dsimp only
  rw [Body.setSemantic, code_edit, Body.insertAfter, code_edit, Body.insertAfter, code_edit, Body.insertBeforeJumpTo, code_edit]
  change edit b.nextId _ (edit (b.nextId + 1) _ (edit p _ (edit p _ b.code))) = _
  rw [h₁, h₂, h₃, h₄]

/-! ## The new code -/

def enforced : Nat → List (Instruction I) → List (Instruction I)
  | _, [] => []
  | n, (p, s) :: code =>
    match instrumented s with
    | some (kind, o) => sequence n p kind o ++ enforced (n + 3) code
    | none => (p, s) :: enforced n code

/-- The new objects of a part. -/
def created (code : List (Instruction I)) : Nat := 3 * code.countP fun x => (instrumented x.2).isSome

theorem enforced_append (n : Nat) (A B : List (Instruction I)) :
    enforced n (A ++ B) = enforced n A ++ enforced (n + created A) B := by
  induction A generalizing n with
  | nil => rfl
  | cons x A ih =>
    obtain ⟨p, s⟩ := x
    rw [List.cons_append, enforced, enforced]
    cases hs : instrumented s with
    | none => simp [ih, created, hs]
    | some t =>
      have hcreated : n + 3 + created A = n + created ((p, s) :: A) := by
        simp [created, hs]
        omega
      simp [ih, hcreated]

theorem mem_sequence {y : Instruction I} (h : y ∈ sequence n p kind o) : y.1 = p ∨ n ≤ y.1 ∧ y.1 < n + 3 := by
  simp only [sequence, List.mem_cons, List.not_mem_nil, or_false] at h
  rcases h with rfl | rfl | rfl | rfl
  · exact .inl rfl
  all_goals exact .inr ⟨by omega, by omega⟩

/-- Every object is an old one or a new one. -/
theorem mem_enforced {code : List (Instruction I)} {y : Instruction I} (h : y ∈ enforced n code) :
    y.1 ∈ code.map (·.1) ∨ n ≤ y.1 := by
  induction code generalizing n with
  | nil => cases h
  | cons x code ih =>
    obtain ⟨p, s⟩ := x
    rw [enforced] at h
    rw [List.map_cons, List.mem_cons]
    cases hs : instrumented s with
    | none =>
      simp only [hs, List.mem_cons] at h
      rcases h with rfl | h
      · exact .inl (.inl rfl)
      · exact (ih h).imp_left .inr
    | some t =>
      simp only [hs, List.mem_append] at h
      rcases h with h | h
      · exact (mem_sequence h).imp .inl (·.1)
      · exact (ih h).imp .inr fun hle => by omega

theorem visit_code_from {code front : List (Instruction I)} (hcode : b.code = front ++ code)
    (hids : ∀ y ∈ b.code, y.1 < b.nextId) (hnodup : (code.map (·.1)).Nodup) (hfront : ∀ y ∈ front, y.1 ∉ code.map (·.1)) :
    (code.foldl visitInstruction b).code = front ++ enforced b.nextId code := by
  induction code generalizing b front with
  | nil => simpa [enforced] using hcode
  | cons x code ih =>
    obtain ⟨p, s⟩ := x
    rw [List.map_cons, List.nodup_cons] at hnodup
    have hA : ∀ y ∈ front, y.1 ≠ p := fun y hy heq => hfront y hy (by simp [heq])
    have hB : ∀ y ∈ code, y.1 ≠ p := fun y hy heq => hnodup.1 (List.mem_map.2 ⟨y, hy, heq⟩)
    have hrest : ∀ y ∈ front, y.1 ∉ code.map (·.1) := fun y hy hmem => hfront y hy (List.mem_cons_of_mem _ hmem)
    rw [List.foldl_cons, enforced]
    cases hs : instrumented s with
    | none =>
      have hvisit : visitInstruction b (p, s) = b := by
        unfold visitInstruction
        rw [hs]
      have hcode' : b.code = (front ++ [(p, s)]) ++ code := by rw [hcode, List.append_assoc, List.singleton_append]
      rw [hvisit, ih hcode' hids hnodup.2, List.append_assoc, List.singleton_append]
      intro y hy
      rcases List.mem_append.1 hy with hy | hy
      · exact hrest y hy
      · rw [List.mem_singleton.1 hy]
        exact hnodup.1
    | some t =>
      obtain ⟨kind, o⟩ := t
      have hvisit : visitInstruction b (p, s) = makeEnforcementCode b p kind o := by
        unfold visitInstruction
        rw [hs]
      obtain ⟨hcode', hnext⟩ := makeEnforcementCode_code kind o hcode hA hB hids
      have hold : ∀ y ∈ code, y.1 < b.nextId := fun y hy => hids y (by rw [hcode]; simp [hy])
      have hp : p < b.nextId := hids (p, s) (by rw [hcode]; simp)
      rw [← List.append_assoc] at hcode'
      rw [hvisit, ih hcode' ?_ hnodup.2 ?_, hnext, List.append_assoc]
      · intro y hy
        rw [hcode', List.mem_append, List.mem_append] at hy
        rw [hnext]
        rcases hy with (hy | hy) | hy
        · have := hids y (by rw [hcode]; exact List.mem_append_left _ hy)
          omega
        · rcases mem_sequence hy with hy | hy <;> omega
        · have := hold y hy
          omega
      · intro y hy
        rcases List.mem_append.1 hy with hy | hy
        · exact hrest y hy
        · rcases mem_sequence hy with hy | hy
          · rw [hy]
            exact hnodup.1
          · intro hmem
            obtain ⟨z, hz, hzy⟩ := List.mem_map.1 hmem
            have := hold z hz
            omega

theorem visit_code (f : Function I) : (visit f.toBody).code = enforced f.nextId f.code := by
  have hcode : f.code = [] ++ f.code := rfl
  exact visit_code_from hcode f.ids f.nodup fun _ h => nomatch h

/-- The last object of what stands for an instruction has the semantic that the instruction ends up with. -/
theorem enforced_singleton (n : Nat) (x : Instruction I) : ∃ front l, enforced n [x] = front ++ [(l, replaced x.2)] := by
  obtain ⟨p, s⟩ := x
  unfold replaced
  rw [enforced]
  cases instrumented s with
  | none => exact ⟨[], p, rfl⟩
  | some t => exact ⟨(sequence n p t.1 t.2).take 3, n, rfl⟩

/-- All places of the old code have one in the new code. -/
theorem at_enforced (hcode : f.code = A ++ B) : At f A B (enforced (f.nextId + created A) B) := by
  have hvisit : (visit f.toBody).code = enforced f.nextId A ++ enforced (f.nextId + created A) B := by
    rw [visit_code, hcode, enforced_append]
  refine ⟨fun hA => ?_, fun front x hA => ?_, fun x hx => ?_⟩
  · rw [hvisit, hA]
    rfl
  · obtain ⟨front', l, hlast⟩ := enforced_singleton (f.nextId + created front) x
    refine ⟨enforced f.nextId front ++ front', l, ?_⟩
    rw [hvisit, hA, enforced_append f.nextId front, hlast]
    simp
  · obtain ⟨B', rfl⟩ := List.head?_eq_some_iff.1 hx
    have hnodup := f.nodup
    rw [← Body.code, hcode, List.map_append, List.nodup_append] at hnodup
    have hx' : x.1 < f.nextId := f.ids x (by rw [← Body.code, hcode]; simp)
    have hhead : ∃ s rest, enforced (f.nextId + created A) (x :: B') = (x.1, s) :: rest := by
      obtain ⟨p, s⟩ := x
      rw [enforced]
      cases instrumented s with
      | none => exact ⟨_, _, rfl⟩
      | some t => exact ⟨_, _, rfl⟩
    obtain ⟨s, rest, hhead⟩ := hhead
    rw [hvisit, behind, List.dropWhile_append_of_pos, hhead, List.dropWhile_cons_of_neg]
    · simp
    · intro y hy
      have hne : y.1 ≠ x.1 := by
        rintro heq
        rcases mem_enforced hy with hmem | hle
        · exact hnodup.2.2 _ hmem x.1 (by simp) heq
        · omega
      simpa using hne

/-! ## The run of the new code -/

theorem decodeInserted_of_ne {byte : UInt8} {rest : List UInt8} (h : byte ≠ 0x41) :
    decodeInserted (byte :: rest) = (decode (byte :: rest)).map .plain := by
  unfold decodeInserted
  split
  · rename_i heq
    exact absurd (List.cons.inj heq).1 h
  · rfl

theorem rexByte_ne (reg indexReg : Int) : rexByte reg indexReg ≠ 0x41 := by
  unfold rexByte
  dsimp only
  split_ifs <;> decide

theorem makeMovR11Instruction_head (o : IndirectOperand) : ∃ byte rest, makeMovR11Instruction o = byte :: rest ∧ byte ≠ 0x41 := by
  unfold makeMovR11Instruction
  cases o with
  | reg r =>
    rw [movBytes]
    split_ifs
    · exact ⟨_, _, rfl, by decide⟩
    · exact ⟨_, _, rfl, by decide⟩
  | mem o =>
    rw [movBytes, baseCode]
    split_ifs <;> exact ⟨_, _, rfl, rexByte_ne _ _⟩

theorem decodeInserted_mov (o : IndirectOperand) : decodeInserted (makeMovR11Instruction o) = some (.plain (firstInstr o)) := by
  obtain ⟨byte, rest, hbytes, hne⟩ := makeMovR11Instruction_head o
  have hdecode : decode (makeMovR11Instruction o) = some (firstInstr o) := by
    cases o with
    | reg r => exact decode_movBytes_reg r
    | mem o => exact decode_movBytes_mem o
  rw [hbytes] at hdecode ⊢
  rw [decodeInserted_of_ne hne, hdecode]
  rfl

theorem decodeTransfer_bytes (kind : Kind) : decodeTransfer (transferBytes kind) = some (kind, .reg r11) := by
  cases kind <;> rfl

/-- The move keeps the memory and the other registers, unless a base and an index are missing. -/
theorem firstInstr_keeps (m : Machine) : ((firstInstr o).exec m).mem = m.mem ∧
    (Right m.regs o → ∀ r, r ≠ r11 → ((firstInstr o).exec m).regs r = m.regs r) := by
  refine ⟨?_, fun hright r hr => ?_⟩
  · cases o with
    | reg r => rfl
    | mem o =>
      rw [firstInstr, loadedInstr]
      split <;> rfl
  · have hsome : ∀ src, o = .mem src → src.base ≠ none ∨ src.index ≠ none := by
      rintro src rfl
      exact hright.1
    obtain ⟨v, hv⟩ := firstInstr_exec hsome m
    rw [hv]
    exact Machine.set_regs_of_ne hr

theorem run_sequence (n p : Nat) (kind : Kind) (o : IndirectOperand) (rest : List (Instruction I)) (m : Machine) :
    ∃ m', m'.regs = ((firstInstr o).exec m).regs ∧ m'.mem = m.mem ∧ run (sequence n p kind o ++ rest) m =
      if load32 m.mem (((firstInstr o).exec m).regs r11) = endbr64 then
        some (.transfer kind (((firstInstr o).exec m).regs r11) m' rest) else some .violation := by
  refine ⟨Op.exec ((firstInstr o).exec m) (.compare r11 endbr64), rfl, (firstInstr_keeps m).1, ?_⟩
  have hcompare : decodeInserted compareBytes = some (.compare r11 endbr64) := rfl
  have hzero : (Op.exec ((firstInstr o).exec m) (.compare r11 endbr64)).flags.zero =
      decide (load32 m.mem (((firstInstr o).exec m).regs r11) = endbr64) := by
    rw [← (firstInstr_keeps m (o := o)).1]
    rfl
  simp only [sequence, List.cons_append, List.nil_append, run, decodeInserted_mov, hcompare, decodeTransfer_bytes,
    Option.bind_some, Option.map_some]
  change (if (Op.exec ((firstInstr o).exec m) (.compare r11 endbr64)).flags.zero = true then _ else _) = _
  rw [hzero]
  simp only [decide_eq_true_eq]
  rfl

variable {target : Word} {rest rest' : List (Instruction I)}

/-- Where there is an `endbr64` at the target, the move must have loaded that. -/
theorem loads_of_enforces (h : Enforces m kind target rest' (run (sequence n p kind o ++ rest) m))
    (htarget : load32 m.mem target = endbr64) : ((firstInstr o).exec m).regs r11 = target := by
  obtain ⟨m', -, -, hrun⟩ := run_sequence n p kind o rest m
  rw [hrun] at h
  split_ifs at h
  · exact h.2.2.1
  · exact absurd htarget h

theorem enforces_of_right (h : ((firstInstr o).exec m).regs r11 = target) (hright : Right m.regs o) :
    Enforces m kind target rest (run (sequence n p kind o ++ rest) m) := by
  obtain ⟨m', hregs, hmem, hrun⟩ := run_sequence n p kind o rest m
  rw [hrun, h]
  split_ifs with hendbr
  · exact ⟨hendbr, rfl, rfl, rfl, hmem, fun r hr => by rw [hregs]; exact (firstInstr_keeps m).2 hright r hr⟩
  · exact hendbr

/-! ## Operands -/

theorem loadedInstr_eq {regs : Register → Word} {o : MemoryOperand} (hsome : o.base ≠ none ∨ o.index ≠ none) :
    ∃ src : Operand, loadedInstr o = .load r11 src ∧ src.address regs = o.operand.address regs + addressError o regs := by
  unfold loadedInstr addressError
  cases hb : o.base with
  | none =>
    obtain ⟨i, hi⟩ := Option.ne_none_iff_exists'.1 (hsome.resolve_left (not_not.2 hb))
    rw [hi]
    refine ⟨_, rfl, ?_⟩
    simp only [Operand.address, MemoryOperand.operand, hb, hi, Option.elim_some, Option.elim_none]
    ring
  | some b =>
    cases hi : o.index with
    | none =>
      refine ⟨_, rfl, ?_⟩
      simp [Operand.address, MemoryOperand.operand, hb, hi]
    | some i =>
      refine ⟨_, rfl, ?_⟩
      simp only [Operand.address, MemoryOperand.operand, hb, hi, Option.elim_some, loadedScale, Option.some.injEq]
      by_cases h8 : i = r8 ∧ (o.scale = 1 ∨ o.scale = 4)
      · rw [if_pos h8, if_pos h8, BitVec.ofNat_mul, h8.1, show BitVec.ofNat 64 2 = (1 + 1 : Word) from rfl]
        ring
      · rw [if_neg h8, if_neg h8]
        ring

/-- A memory with `endbr64` at `t`, the address `t` at `a`, and `c` everywhere else. -/
def endbrMemory (c : BitVec 8) (a t : Word) : Memory :=
  Memory.store (writeWord (n := 4) (fun _ => c) t endbr64) a t

section Memory

variable {c : BitVec 8} {a a' t v x : Word}

theorem load_endbrMemory : (endbrMemory c a t).load a = t := Memory.load_store _ a t

theorem endbr_endbrMemory (h : Apart 8 4 a t) : load32 (endbrMemory c a t) t = endbr64 := by
  refine (readWord_writeWord_of_apart (n := 8) h).trans ?_
  exact readWord_writeWord (by norm_num)

theorem endbrMemory_away (ha : 8 ≤ (x - a).toNat) (ht : 4 ≤ (x - t).toNat) : endbrMemory c a t x = c :=
  (writeWord_of_le (n := 8) ha).trans (writeWord_of_le (n := 4) ht)

/-- There is room for `endbr64` away from the word at `a` and another byte. -/
theorem exists_apart (a x : Word) : ∃ t, Apart 8 4 a t ∧ 4 ≤ (x - t).toNat ∧ t ≠ x := by
  by_cases hx : 4 ≤ (x - (a + 16)).toNat
  · refine ⟨a + 16, apart_of_distance (d := 16) ?_ (by norm_num) (by norm_num), hx, ?_⟩
    · simp
    · rintro rfl
      simp at hx
  · refine ⟨a + 32, apart_of_distance (d := 32) ?_ (by norm_num) (by norm_num), ?_, ?_⟩
    · simp
    · bv_omega
    · rintro rfl
      bv_omega

/-- Two words that are the same where the first is the address of `endbr64` are the same word. -/
theorem address_eq_of_load_eq (h : ∀ mem : Memory, load32 mem (mem.load a) = endbr64 → mem.load a' = mem.load a) : a' = a := by
  by_contra hne
  obtain ⟨i, hi, hout⟩ : ∃ i < 8, 8 ≤ (a' + BitVec.ofNat 64 i - a).toNat := by
    by_cases h0 : 8 ≤ (a' - a).toNat
    · exact ⟨0, by norm_num, by simpa using h0⟩
    · refine ⟨7, by norm_num, ?_⟩
      have : (a' - a).toNat ≠ 0 := fun h0 => hne (by bv_omega)
      bv_omega
  obtain ⟨t, hapart, hxt, -⟩ := exists_apart a (a' + BitVec.ofNat 64 i)
  have hsame : (endbrMemory 0 a t).load a' = (endbrMemory 1 a t).load a' := by
    have h0 := h (endbrMemory 0 a t)
    have h1 := h (endbrMemory 1 a t)
    rw [load_endbrMemory] at h0 h1
    exact (h0 (endbr_endbrMemory hapart)).trans (h1 (endbr_endbrMemory hapart)).symm
  have hbyte := readWord_inj hsame hi
  rw [endbrMemory_away hout hxt, endbrMemory_away hout hxt] at hbyte
  revert hbyte
  decide

end Memory

/-- What the move has to load where there is an `endbr64` at the target. -/
theorem right_of_loads {regs : Register → Word} (hloads : ∀ mem : Memory,
    load32 mem (o.target ⟨regs, mem, Flags.ofWord 0⟩) = endbr64 →
      ((firstInstr o).exec ⟨regs, mem, Flags.ofWord 0⟩).regs r11 = o.target ⟨regs, mem, Flags.ofWord 0⟩) : Right regs o := by
  cases o with
  | reg r => trivial
  | mem o =>
    change ∀ mem : Memory, load32 mem (mem.load (o.operand.address regs)) = endbr64 →
      ((firstInstr (.mem o)).exec ⟨regs, mem, Flags.ofWord 0⟩).regs r11 = mem.load (o.operand.address regs) at hloads
    by_cases hsome : o.base ≠ none ∨ o.index ≠ none
    · obtain ⟨src, hsrc, haddress⟩ := @loadedInstr_eq regs o hsome
      refine ⟨hsome, ?_⟩
      have heq := address_eq_of_load_eq fun mem htarget => (show mem.load (src.address regs) = _ by
        rw [← hloads mem htarget, firstInstr, hsrc]
        exact (Machine.set_regs_self).symm)
      rw [haddress] at heq
      simpa using heq
    · -- nothing is loaded into the register
      obtain ⟨t, hapart, -, hne⟩ := exists_apart (o.operand.address regs) (regs r11)
      have htarget := hloads (endbrMemory 0 (o.operand.address regs) t)
      rw [load_endbrMemory] at htarget
      have hr11 := htarget (endbr_endbrMemory hapart)
      rw [not_or, not_not, not_not] at hsome
      rw [firstInstr, loadedInstr, hsome.1, hsome.2] at hr11
      exact absurd ((Machine.set_regs_of_ne (by decide)).symm.trans hr11).symm hne

theorem loads_of_right (hright : Right m.regs o) : ((firstInstr o).exec m).regs r11 = o.target m := by
  cases o with
  | reg r => exact Machine.set_regs_self
  | mem o =>
    obtain ⟨src, hsrc, haddress⟩ := @loadedInstr_eq m.regs o hright.1
    rw [hright.2, add_zero] at haddress
    rw [firstInstr, hsrc, IndirectOperand.target, ← haddress]
    exact Machine.set_regs_self

theorem right_of_enforces {regs : Register → Word} (h : ∀ mem flags, Enforces ⟨regs, mem, flags⟩ kind
    (o.target ⟨regs, mem, flags⟩) rest' (run (sequence n p kind o ++ rest) ⟨regs, mem, flags⟩)) : Right regs o :=
  right_of_loads fun mem htarget => loads_of_enforces (h mem (Flags.ofWord 0)) htarget

/-- The new code enforces what it should, whatever is in the memory, exactly if the operand is right. -/
theorem sequence_enforces_iff (regs : Register → Word) : (∀ mem flags, Enforces ⟨regs, mem, flags⟩ kind
    (o.target ⟨regs, mem, flags⟩) rest (run (sequence n p kind o ++ rest) ⟨regs, mem, flags⟩)) ↔ Right regs o := by
  constructor
  · exact right_of_enforces
  · exact fun hright mem flags => enforces_of_right (loads_of_right hright) hright

/-- For every instrumented instruction and all registers: it is reached in its new place as before, and what is there
enforces what it should, whatever is in the memory and the flags, exactly if its operand is right. -/
theorem enforced_iff (f : Function I) (site : Site f) (regs : Register → Word) :
    ∃ pos rest, At f site.before ((site.point, site.semantic) :: site.after) pos ∧
      At f (site.before ++ [(site.point, site.semantic)]) site.after rest ∧
      ((∀ mem flags, Enforces ⟨regs, mem, flags⟩ site.kind (site.operand.target ⟨regs, mem, flags⟩) rest
        (run pos ⟨regs, mem, flags⟩)) ↔ Right regs site.operand) := by
  have hrest : f.code = (site.before ++ [(site.point, site.semantic)]) ++ site.after := by rw [site.code_eq]; simp
  have hcreated : f.nextId + created (site.before ++ [(site.point, site.semantic)]) = f.nextId + created site.before + 3 := by
    simp [created, site.instrumented_eq]
    omega
  refine ⟨_, _, at_enforced site.code_eq, at_enforced hrest, ?_⟩
  rw [hcreated, enforced, site.instrumented_eq]
  exact sequence_enforces_iff regs

/-! ## An index of 8 -/

/-- `call *(%rax,%r8)` -/
def indexedFunction : Function Empty where
  blocks := [[(0, .indirectCall indexedOperand)]]
  nextId := 1
  nodup := by decide
  ids := by decide

def indexedSite : Site indexedFunction where
  before := []
  point := 0
  semantic := .indirectCall indexedOperand
  after := []
  kind := .call
  operand := indexedOperand
  code_eq := rfl
  instrumented_eq := rfl

/-- The target is loaded from `(%rax,%r8,2)`. -/
theorem r8_index_not_enforced : ¬ ∃ pos, At indexedFunction [] [(0, .indirectCall indexedOperand)] pos ∧
    ∃ rest, ∀ regs mem flags, Enforces ⟨regs, mem, flags⟩ .call (indexedOperand.target ⟨regs, mem, flags⟩) rest
      (run pos ⟨regs, mem, flags⟩) := by
  rintro ⟨pos, hpos, rest, h⟩
  -- the position can only be that of the new code
  have hcode : (visit indexedFunction.toBody).code = sequence 1 0 .call indexedOperand ++ [] := rfl
  have hat := hpos.start rfl
  rw [hcode] at hat
  subst hat
  have hright := right_of_enforces (h fun _ => 8)
  exact absurd hright.2 (by decide)

end Egalito.EndbrEnforce
