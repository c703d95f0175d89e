import Egalito.Lib.Siblings
import Egalito.X86.Stack
/-!
# `SyscallSandbox`

`pass/syscallsandbox.cpp`: code in front of a system call that calls an
enforcement function with the arguments of the call, and skips the call when the
function returns zero.
-/

namespace Egalito.SyscallSandbox

open X86

/-! ## The inserted code -/

/-- What is in a function besides the inserted instructions: the instructions that it had, and the call of the
enforcement function. -/
inductive Other (I : Type)
  | original (i : I)
  | callEnforce
deriving DecidableEq, Repr

variable {I : Type}

def beforeCall : List (List UInt8) :=
  [[0x57], [0x48, 0x89, 0xe7], [0x48, 0x83, 0xe4, 0xf0], [0x57], [0x48, 0x8b, 0x7c, 0x24, 0x08], [0x56], [0x52],
    [0x41, 0x52], [0x41, 0x50], [0x41, 0x51], [0x51], [0x4c, 0x89, 0xd1], [0x50]]

def afterCall : List (List UInt8) :=
  [[0x49, 0x89, 0xc3], [0x58], [0x59], [0x41, 0x59], [0x41, 0x58], [0x41, 0x5a], [0x5a], [0x5e], [0x5f],
    [0x48, 0x89, 0xfc], [0x5f], [0x4d, 0x85, 0xdb]]

/-- The id of a block that is allocated. -/
def newBlock (blocks : List (Block (Other I))) : Nat := blocks.foldr (fun b n => max (b.id + 1) n) 0

/-- The point is the instruction at `j` of the block at `i`. -/
def splitBlockBefore (i j : Nat) (blocks : List (Block (Other I))) : List (Block (Other I)) :=
  blocks.take i ++ (blocks[i]?.elim [] fun b => [⟨b.id, b.code.take j⟩, ⟨newBlock blocks, b.code.drop j⟩]) ++
    blocks.drop (i + 1)

def append (i : Nat) (code : List (Insn (Other I))) (blocks : List (Block (Other I))) : List (Block (Other I)) :=
  blocks.modify i fun b => ⟨b.id, b.code ++ code⟩

def insertAfter (i : Nat) (blocks : List (Block (Other I))) : List (Block (Other I)) :=
  blocks.insertIdx (i + 1) ⟨newBlock blocks, []⟩

/-- The system call is the instruction at `j` of the block at `i`. After the splits its own block is the one at `i + 1`,
and that of the epilogue the one at `i + 2`. -/
def addEnforcement (i j : Nat) (blocks : List (Block (Other I))) : Option (List (Block (Other I))) := do
  let block1 ← blocks[i]?
  if block1.code.length ≤ j + 1 then some blocks
  else
    let blocks := splitBlockBefore i j (splitBlockBefore i (j + 1) blocks)
    let before ← beforeCall.mapM decode
    let blocks := append i (before.map .plain ++ [.other .callEnforce]) blocks
    let block3 ← blocks[i + 2]?
    let blocks := insertAfter i blocks
    let after ← afterCall.mapM decode
    some (append (i + 1) (after.map .plain ++ [.jumpZero block3.id]) blocks)

/-! ## The blocks after the pass -/

def alignMask : Word := 0xfffffffffffffff0

def prologue : List Instr :=
  [.push rdi, .move rdi rsp, .and rsp alignMask, .push rdi, .load rdi ⟨some rsp, none, 1, 8⟩, .push rsi, .push rdx, .push r10,
    .push r8, .push r9, .push rcx, .move rcx r10, .push rax]

def epilogue : List Instr :=
  [.move r11 rax, .pop rax, .pop rcx, .pop r9, .pop r8, .pop r10, .pop rdx, .pop rsi, .pop rdi, .move rsp rdi, .pop rdi,
    .test r11 r11]

theorem decode_beforeCall : beforeCall.mapM decode = some prologue := by decide

theorem decode_afterCall : afterCall.mapM decode = some epilogue := by decide

theorem lt_newBlock {blocks : List (Block (Other I))} {b : Block (Other I)} (hb : b ∈ blocks) : b.id < newBlock blocks := by
  induction blocks with
  | nil => cases hb
  | cons c blocks ih =>
    rw [newBlock, List.foldr_cons, ← newBlock]
    rcases List.mem_cons.1 hb with rfl | hb
    · omega
    · have := ih hb
      omega

variable {A B : List (Block (Other I))} {b : Block (Other I)} {pre rest : List (Insn (Other I))} {sys epi : Insn (Other I)}

theorem splitBlockBefore_eq {front back : List (Insn (Other I))} (hcode : b.code = front ++ back) :
    splitBlockBefore A.length front.length (A ++ b :: B) =
      A ++ ⟨b.id, front⟩ :: ⟨newBlock (A ++ b :: B), back⟩ :: B := by
  simp [splitBlockBefore, hcode]

theorem append_eq {code : List (Insn (Other I))} :
    append A.length code (A ++ b :: B) = A ++ ⟨b.id, b.code ++ code⟩ :: B := by
  unfold append
  induction A with
  | nil => rfl
  | cons a A ih => exact congrArg (a :: ·) ih

theorem append_next {c : Block (Other I)} {code : List (Insn (Other I))} :
    append (A.length + 1) code (A ++ b :: c :: B) = A ++ b :: ⟨c.id, c.code ++ code⟩ :: B := by
  have h : append (A ++ [b]).length code ((A ++ [b]) ++ c :: B) = _ := append_eq
  simpa using h

theorem insertAfter_eq : insertAfter A.length (A ++ b :: B) = A ++ b :: ⟨newBlock (A ++ b :: B), []⟩ :: B := by
  have h := Lib.insertIdx_middle (a := A ++ [b]) (b := B) (x := ⟨newBlock (A ++ b :: B), []⟩)
  simpa [insertAfter] using h

def callBlock (b : Block (Other I)) (pre : List (Insn (Other I))) : Block (Other I) :=
  ⟨b.id, pre ++ (prologue.map .plain ++ [.other .callEnforce])⟩

def checkBlock (block2 block3 : Nat) : Block (Other I) := ⟨block2, epilogue.map .plain ++ [.jumpZero block3]⟩

/-- The blocks of the function with the enforcement in it. -/
structure Sandboxed (A B : List (Block (Other I))) (b : Block (Other I)) (pre rest : List (Insn (Other I)))
    (sys epi : Insn (Other I)) (blocks : List (Block (Other I))) : Prop where
  layout : ∃ n₁ n₂ n₃,
    blocks = A ++ callBlock b pre :: checkBlock n₂ n₃ :: ⟨n₁, [sys]⟩ :: ⟨n₃, epi :: rest⟩ :: B ∧
    n₁ ≠ n₃ ∧ n₂ ≠ n₃ ∧ b.id ≠ n₃ ∧ ∀ a ∈ A, a.id ≠ n₃

theorem addEnforcement_sandboxed (hcode : b.code = pre ++ sys :: epi :: rest) :
    ∃ blocks, addEnforcement A.length pre.length (A ++ b :: B) = some blocks ∧ Sandboxed A B b pre rest sys epi blocks := by
  have hL : (A ++ b :: B)[A.length]? = some b := by simp
  have hlong : ¬ b.code.length ≤ pre.length + 1 := by simp [hcode]
  set n₃ := newBlock (A ++ b :: B) with hn₃
  have h₁ : splitBlockBefore A.length (pre.length + 1) (A ++ b :: B) =
      A ++ ⟨b.id, pre ++ [sys]⟩ :: ⟨n₃, epi :: rest⟩ :: B := by
    have hfront : pre.length + 1 = (pre ++ [sys]).length := by simp
    rw [hfront, splitBlockBefore_eq (show b.code = (pre ++ [sys]) ++ epi :: rest by simp [hcode])]
  set n₁ := newBlock (A ++ ⟨b.id, pre ++ [sys]⟩ :: ⟨n₃, epi :: rest⟩ :: B) with hn₁
  have h₂ : splitBlockBefore A.length pre.length (A ++ ⟨b.id, pre ++ [sys]⟩ :: ⟨n₃, epi :: rest⟩ :: B) =
      A ++ ⟨b.id, pre⟩ :: ⟨n₁, [sys]⟩ :: ⟨n₃, epi :: rest⟩ :: B := splitBlockBefore_eq rfl
  have hlt : ∀ a ∈ A ++ b :: B, a.id < n₃ := fun a => lt_newBlock
  have hlt₁ : n₃ < n₁ := lt_newBlock (b := ⟨n₃, epi :: rest⟩) (by simp)
  refine ⟨_, ?_, n₁, newBlock (A ++ callBlock b pre :: ⟨n₁, [sys]⟩ :: ⟨n₃, epi :: rest⟩ :: B), n₃, rfl, hlt₁.ne', (lt_newBlock (b := ⟨n₃, epi :: rest⟩) (by simp)).ne',
    (hlt b (by simp)).ne, fun a ha => (hlt a (by simp [ha])).ne⟩
  have hblock3 : (A ++ callBlock b pre :: ⟨n₁, [sys]⟩ :: ⟨n₃, epi :: rest⟩ :: B)[A.length + 2]? =
      some ⟨n₃, epi :: rest⟩ := by simp
  simp only [callBlock, checkBlock] at hblock3 ⊢
  simp only [addEnforcement, hL, Option.bind_eq_bind, Option.bind_some, if_neg hlong, h₁, h₂, decode_beforeCall, append_eq,
    hblock3, insertAfter_eq, decode_afterCall, append_next, List.nil_append]

/-! ## The stack pointer -/

theorem toNat_and_alignMask (v : Word) : (v &&& alignMask).toNat = v.toNat / 16 * 16 := by
  have hmask : ∀ i, i < 64 → alignMask.getLsbD i = decide (4 ≤ i) := by decide
  have hshift : v &&& alignMask = v >>> 4 <<< 4 := by
    refine BitVec.eq_of_getLsbD_eq fun i hi => ?_
    rw [BitVec.getLsbD_and, hmask i hi, BitVec.getLsbD_shiftLeft, BitVec.getLsbD_ushiftRight]
    by_cases h4 : 4 ≤ i
    · simp [h4, hi]
    · simp [h4]
  rw [hshift, BitVec.toNat_shiftLeft, BitVec.toNat_ushiftRight, Nat.shiftLeft_eq, Nat.shiftRight_eq_div_pow]
  omega

theorem toNat_sub_and_alignMask (v : Word) : (v - (v &&& alignMask)).toNat = v.toNat % 16 := by
  have h := toNat_and_alignMask v
  rw [BitVec.toNat_sub]
  omega

/-! ## What is to hold -/

/-- What a function keeps that obeys the calling convention, with the `frame` bytes on top of the stack of the caller. -/
structure ObeysConvention (frame : Nat) (enforce : Machine → Machine) : Prop where
  registers : ∀ m, ∀ r ∈ [rbx, rsp, rbp, r12, r13, r14, r15], (enforce m).regs r = m.regs r
  frame : ∀ m x, (x - m.regs rsp).toNat < frame → (enforce m).mem x = m.mem x

/-- What the inserted code has at most on the stack when it calls. -/
def frameSize : Nat := 88

def other (enforce : Machine → Machine) : Other I → Machine → Option Machine
  | .original _, _ => none
  | .callEnforce, m => some (enforce m)

def callState (m : Machine) : Machine := prologue.foldl (fun m k => k.exec m) m

/-- The system call was at `j` of the block at `i`, and is now at the beginning of the block at `i + 2`. -/
structure Enforced (address : Point → Word) (enforce : Machine → Machine) (blocks : List (Block (Other I))) (i j : Nat)
    (m : Machine) : Prop where
  called : Reaches address (other enforce) blocks ((i, j), m) ((i, j + prologue.length), callState m)
  aligned : ((callState m).regs rsp).toNat % 16 = 0
  arguments : [rdi, rsi, rdx, rcx, r8, r9].map (callState m).regs = [rdi, rsi, rdx, r10, r8, r9].map m.regs
  allowed : (enforce (callState m)).regs rax ≠ 0 →
    ∃ m', Reaches address (other enforce) blocks ((i, j), m) ((i + 2, 0), m') ∧
      ∀ r ∈ [rax, rdi, rsi, rdx, r10, r8, r9, rsp], m'.regs r = m.regs r
  denied : (enforce (callState m)).regs rax = 0 →
    ∃ m', Reaches address (other enforce) blocks ((i, j), m) ((i + 3, 0), m') ∧ m'.regs rsp = m.regs rsp

/-! ## The run of the code -/

section Run

variable {enforce : Machine → Machine} {m : Machine}

/-- The inserted code from the second push on to its restore, around the call. -/
def aroundCall : List (Instr ⊕ Unit) :=
  saved (.reg rdi) (.inl (.load rdi ⟨some rsp, none, 1, 8⟩) ::
    nested (.inl (.move rcx r10) :: saved (.reg rax) [.inr (), .inl (.move r11 rax)])
      [.reg rsi, .reg rdx, .reg r10, .reg r8, .reg r9, .reg rcx])

theorem enforced_code : prologue.map .inl ++ .inr () :: epilogue.map .inl =
    [.push rdi, .move rdi rsp, .and rsp alignMask].map .inl ++ aroundCall ++
      [.move rsp rdi, .pop rdi, .test r11 r11].map .inl := rfl

theorem aroundCall_keeps (hconv : ObeysConvention frameSize enforce) :
    Keeps (execWith fun m _ => enforce m) 24 aroundCall ∧
      ∀ r ∈ [rax, rdi, rsi, rdx, r10, r8, r9], ∀ m,
        (Slot.reg r).Same m (aroundCall.foldl (execWith fun m _ => enforce m) m) := by
  have hmove : ∀ dst src, dst ≠ rsp → (Instr.move dst src).Quiet := fun dst src h =>
    ⟨fun m => Machine.set_regs_of_ne h.symm, fun m => rfl⟩
  have hload : (Instr.load rdi ⟨some rsp, none, 1, 8⟩).Quiet := ⟨fun m => Machine.set_regs_of_ne (by decide), fun m => rfl⟩
  have hcall : Keeps (execWith fun m _ => enforce m) 88 [.inr (), .inl (.move r11 rax)] := by
    refine ⟨fun m => ?_, fun m p hp x hx => ?_⟩
    · exact ((hmove r11 rax (by decide)).rsp _).trans (hconv.registers m rsp (by decide))
    · rcases p with _ | ⟨i, _ | ⟨k, p⟩⟩
      · rfl
      · obtain ⟨rfl, -⟩ := List.cons_prefix_cons.1 hp
        exact hconv.frame m x hx
      · obtain ⟨rfl, hq⟩ := List.cons_prefix_cons.1 hp
        obtain ⟨rfl, hq'⟩ := List.cons_prefix_cons.1 hq
        rw [List.prefix_nil.1 hq']
        exact hconv.frame m x hx
  have hrax := hcall.saved (s := .reg rax) (e := 80) (by norm_num)
  have hargs : Keeps _ (32 + 8 * [Slot.reg rsi, .reg rdx, .reg r10, .reg r8, .reg r9, .reg rcx].length) _ :=
    hrax.cons (hmove rcx r10 (by decide))
  have hinner := (hargs.nested (by norm_num)).cons hload
  refine ⟨hinner.saved (e := 24) (by norm_num), fun r hr m => ?_⟩
  by_cases hrdi : r = rdi
  · subst hrdi
    exact hinner.saved_same
  · have hrsp : Slot.reg r ≠ .reg rsp := by
      rintro ⟨⟩
      revert hr
      decide
    refine hinner.saved_other (fun m => cons_same (fun m => ?_) (Machine.set_regs_of_ne hrdi)) hrsp
    by_cases hsaved : Slot.reg r ∈ [.reg rsi, .reg rdx, .reg r10, .reg r8, .reg r9, .reg rcx]
    · exact hargs.nested_same (e := 32) (by norm_num) hsaved
    · obtain rfl : r = rax := by
        revert r
        decide
      exact hargs.nested_other (e := 32) (by norm_num)
        (fun m => cons_same (fun m => hcall.saved_same) (Machine.set_regs_of_ne (by decide))) hrsp

/-- What the code leaves that runs after the call. -/
def finalState (enforce : Machine → Machine) (m : Machine) : Machine :=
  epilogue.foldl (fun m k => k.exec m) (enforce (callState m))

theorem finalState_eq : finalState enforce m =
    ([Instr.move rsp rdi, .pop rdi, .test r11 r11].foldl (fun m k => k.exec m)
      (aroundCall.foldl (execWith fun m _ => enforce m)
        ([Instr.push rdi, .move rdi rsp, .and rsp alignMask].foldl (fun m k => k.exec m) m))) := by
  have hfold : ∀ (l : List Instr) m, (l.map Sum.inl).foldl (execWith fun m (_ : Unit) => enforce m) m =
      l.foldl (fun m k => k.exec m) m := fun l m => by
    rw [List.foldl_map]
    rfl
  have hrun := congrArg (List.foldl (execWith fun m _ => enforce m) m) enforced_code
  rw [List.foldl_append, List.foldl_cons, hfold, hfold, List.foldl_append, List.foldl_append, hfold, hfold] at hrun
  exact hrun

theorem finalState_regs (hconv : ObeysConvention frameSize enforce) :
    ∀ r ∈ [rax, rdi, rsi, rdx, r10, r8, r9, rsp], (finalState enforce m).regs r = m.regs r := by
  obtain ⟨hkeeps, hsame⟩ := aroundCall_keeps hconv
  set m₁ := [Instr.push rdi, .move rdi rsp, .and rsp alignMask].foldl (fun m k => k.exec m) m with hm₁
  set m₂ := aroundCall.foldl (execWith fun m _ => enforce m) m₁ with hm₂
  have hrsp₁ : m₁.regs rsp = (m.regs rsp - 8) &&& alignMask := by
    simp [hm₁, Instr.exec, Machine.pushWord, Machine.set, rsp, rdi]
  have hrdi₁ : m₁.regs rdi = m.regs rsp - 8 := by
    simp [hm₁, Instr.exec, Machine.pushWord, Machine.set, rsp, rdi]
  have hmem₁ : m₁.mem = m.mem.store (m.regs rsp - 8) (m.regs rdi) := by
    simp [hm₁, Instr.exec, Machine.pushWord, Machine.set, rsp, rdi]
  have hrdi₂ : m₂.regs rdi = m.regs rsp - 8 := Eq.trans (hsame rdi (by decide) m₁) hrdi₁
  -- the first push is less than 24 bytes above the aligned stack pointer
  have hload : m₂.mem.load (m.regs rsp - 8) = m.regs rdi := by
    rw [Memory.load_congr fun x hx => hkeeps.above m₁ aroundCall (List.prefix_refl _) x ?_, hmem₁,
      Memory.load_store]
    have hdist := toNat_sub_and_alignMask (m.regs rsp - 8)
    have hsplit : x - m₁.regs rsp = (x - (m.regs rsp - 8)) + ((m.regs rsp - 8) - ((m.regs rsp - 8) &&& alignMask)) := by
      rw [hrsp₁]
      ring
    rw [hsplit, BitVec.toNat_add]
    omega
  have hfinal : ∀ r, (finalState enforce m).regs r =
      if r = rdi then m.regs rdi else if r = rsp then m.regs rsp else m₂.regs r := fun r => by
    rw [finalState_eq, ← hm₁, ← hm₂]
    simp only [List.foldl_cons, List.foldl_nil, Instr.exec, Machine.dropWord, Machine.top, Machine.set, hrdi₂,
      Function.update_apply]
    split_ifs <;> simp_all
  intro r hr
  rw [hfinal]
  split_ifs with hrdi hrsp
  · rw [hrdi]
  · rw [hrsp]
  · have h₂ : m₂.regs r = m₁.regs r := hsame r (by revert hr hrsp; revert r; decide) m₁
    rw [h₂]
    simp [hm₁, Instr.exec, Machine.pushWord, Machine.set, Function.update_of_ne, hrsp, hrdi]

theorem finalState_zero : (finalState enforce m).flags.zero = true ↔ (enforce (callState m)).regs rax = 0 := by
  simp [finalState, epilogue, Instr.exec, Machine.dropWord, Machine.set, logicFlags, rsp, rdi, rcx, rax, rdx, rsi, X86.r10,
    X86.r8, X86.r9, X86.r11]

theorem callState_rsp : (callState m).regs rsp = ((m.regs rsp - 8) &&& alignMask) - 64 := by
  simp [callState, prologue, Instr.exec, Machine.pushWord, Machine.set, rsp, rdi, rcx, rax, rdx, rsi, X86.r10, X86.r8, X86.r9]
  rw [show (64#64 : Word) = 8#64 * 8 from rfl]
  ring

/-- The register of the first argument is loaded from the aligned address. -/
theorem callState_rdi : (callState m).regs rdi =
    (m.mem.store (m.regs rsp - 8) (m.regs rdi)).load ((m.regs rsp - 8) &&& alignMask) := by
  have hapart : ∀ a : Word, Lib.Apart 8 8 (a - 8) a := fun a => by
    refine Lib.apart_of_distance (d := 8) ?_ (by norm_num) (by norm_num)
    rw [sub_sub_cancel]
    rfl
  simp [callState, prologue, Instr.exec, Machine.pushWord, Machine.set, Operand.address, rsp, rdi, rcx, rax, rdx, rsi,
    X86.r10, X86.r8, X86.r9]
  exact Memory.load_store_of_apart (hapart _)

theorem callState_arguments : [rsi, rdx, rcx, r8, r9].map (callState m).regs = [rsi, rdx, r10, r8, r9].map m.regs := by
  simp [callState, prologue, Instr.exec, Machine.pushWord, Machine.set, rsp, rdi, rcx, rax, rdx, rsi, X86.r10, X86.r8, X86.r9]

/-- The code runs from where the system call was to the call itself or to the instruction behind it. -/
theorem Sandboxed.reaches {blocks : List (Block (Other I))} (hs : Sandboxed A B b pre rest sys epi blocks)
    (address : Point → Word) (enforce : Machine → Machine) (m : Machine) :
    Reaches address (other enforce) blocks ((A.length, pre.length), m) ((A.length, pre.length + prologue.length), callState m) ∧
    Reaches address (other enforce) blocks ((A.length, pre.length), m)
      ((A.length + if (enforce (callState m)).regs rax = 0 then 3 else 2, 0), finalState enforce m) := by
  obtain ⟨n₁, n₂, n₃, rfl, hn₁, hn₂, hb, hA⟩ := hs.layout
  set blocks := A ++ callBlock b pre :: checkBlock n₂ n₃ :: ⟨n₁, [sys]⟩ :: ⟨n₃, epi :: rest⟩ :: B with hblocks
  have h₀ : blocks[A.length]? = some (callBlock b pre) := by simp [hblocks]
  have h₁ : blocks[A.length + 1]? = some (checkBlock n₂ n₃) := by simp [hblocks]
  have henter : blocks.findIdx? (·.id = n₃) = some (A.length + 3) := by
    have hnone : A.findIdx? (·.id = n₃) = none := List.findIdx?_eq_none_iff.2 fun a ha => by simp [hA a ha]
    rw [hblocks, List.findIdx?_append, hnone]
    simp [callBlock, checkBlock, List.findIdx?_cons, hb, hn₁, hn₂, Nat.add_comm]
  have hcall : Reaches address (other enforce) blocks ((A.length, pre.length), m)
      ((A.length, pre.length + prologue.length), callState m) :=
    reaches_plain h₀ (List.append_assoc ..).symm
  refine ⟨hcall, ?_⟩
  have henforce : step address (other enforce) blocks ((A.length, pre.length + prologue.length), callState m) =
      some ((A.length, pre.length + prologue.length + 1), enforce (callState m)) := by
    have h : step address (other enforce) blocks ((A.length, (pre ++ prologue.map Insn.plain).length), callState m) = _ :=
      step_at h₀ (show (callBlock b pre).code = (pre ++ prologue.map .plain) ++ .other .callEnforce :: [] by simp [callBlock])
    simpa [Insn.step, other] using h
  have hfall : step address (other enforce) blocks ((A.length, pre.length + prologue.length + 1), enforce (callState m)) =
      some ((A.length + 1, 0), enforce (callState m)) := by
    have h : step address (other enforce) blocks ((A.length, _), enforce (callState m)) = _ := step_end h₀
    simpa [callBlock, Nat.add_assoc] using h
  have hafter : Reaches address (other enforce) blocks ((A.length + 1, 0), enforce (callState m))
      ((A.length + 1, epilogue.length), finalState enforce m) := by
    have h : Reaches address (other enforce) blocks ((A.length + 1, 0), enforce (callState m))
        ((A.length + 1, 0 + epilogue.length), finalState enforce m) :=
      reaches_plain h₁ (show (checkBlock n₂ n₃).code = [] ++ epilogue.map .plain ++ [.jumpZero n₃] from rfl)
    rwa [Nat.zero_add] at h
  have hbefore := ((hcall.tail henforce).tail hfall).trans hafter
  have hjump : step address (other enforce) blocks ((A.length + 1, (epilogue.map Insn.plain).length), finalState enforce m) = _ :=
    step_at h₁ (show (checkBlock n₂ n₃).code = epilogue.map .plain ++ .jumpZero n₃ :: [] from rfl)
  rw [Insn.step, List.length_map] at hjump
  by_cases hzero : (enforce (callState m)).regs rax = 0
  · rw [if_pos (finalState_zero.2 hzero), enter, henter] at hjump
    rw [if_pos hzero]
    exact hbefore.tail hjump
  · rw [if_neg (fun h => hzero (finalState_zero.1 h))] at hjump
    rw [if_neg hzero]
    refine (hbefore.tail hjump).tail ?_
    have h : step address (other enforce) blocks ((A.length + 1, _), finalState enforce m) = _ := step_end h₁
    simpa [checkBlock] using h

/-- With the stack pointer that a call leaves, the aligned address is that of the first push. -/
theorem load_alignMask (h : (m.regs rsp).toNat % 16 = 8) :
    (m.mem.store (m.regs rsp - 8) (m.regs rdi)).load ((m.regs rsp - 8) &&& alignMask) = m.regs rdi := by
  have hself : (m.regs rsp - 8) &&& alignMask = m.regs rsp - 8 := by
    have hsub : (m.regs rsp - 8).toNat % 16 = 0 := by
      have := (m.regs rsp).isLt
      rw [BitVec.toNat_sub, show (8 : Word).toNat = 8 from rfl]
      omega
    apply BitVec.eq_of_toNat_eq
    rw [toNat_and_alignMask]
    omega
  rw [hself, Memory.load_store]

/-- All but the first argument is right for every state: that one is the first push only if that was aligned, or if the
bytes at the aligned address are the same by chance. -/
theorem addEnforcement_enforced_iff (address : Point → Word) (hconv : ObeysConvention frameSize enforce)
    (hcode : b.code = pre ++ sys :: epi :: rest) :
    ∃ blocks, addEnforcement A.length pre.length (A ++ b :: B) = some blocks ∧ Sandboxed A B b pre rest sys epi blocks ∧
      ∀ m : Machine, Enforced address enforce blocks A.length pre.length m ↔
        (m.regs rsp).toNat % 16 = 8 ∨
          (m.mem.store (m.regs rsp - 8) (m.regs rdi)).load ((m.regs rsp - 8) &&& alignMask) = m.regs rdi := by
  obtain ⟨blocks, hblocks, hs⟩ := addEnforcement_sandboxed (A := A) (B := B) hcode
  refine ⟨blocks, hblocks, hs, fun m => ⟨fun h => .inr ?_, fun h => ?_⟩⟩
  · rw [← callState_rdi]
    exact (List.cons.inj h.arguments).1
  · have hrdi : (callState m).regs rdi = m.regs rdi := callState_rdi.trans (h.elim load_alignMask id)
    obtain ⟨hcalled, hfinal⟩ := hs.reaches address enforce m
    refine ⟨hcalled, ?_, ?_, fun hne => ⟨_, ?_, finalState_regs hconv⟩, fun hzero => ⟨_, ?_, finalState_regs hconv rsp (by decide)⟩⟩
    · have hmask := toNat_and_alignMask (m.regs rsp - 8)
      rw [callState_rsp, BitVec.toNat_sub, hmask]
      have : ((m.regs rsp - 8).toNat) < 2 ^ 64 := (m.regs rsp - 8).isLt
      rw [show (64 : Word).toNat = 64 from rfl]
      omega
    · rw [List.map_cons, callState_arguments, hrdi]
      rfl
    · rwa [if_neg hne] at hfinal
    · rwa [if_pos hzero] at hfinal

end Run

/-- A system call with one instruction behind it. -/
def sampleBlock : Block (Other Nat) := ⟨0, [.other (.original 0), .other (.original 1)]⟩

/-- An enforcement function that allows the call. -/
def allow (m : Machine) : Machine := m.set rax 1

theorem allow_obeys : ObeysConvention frameSize allow := by
  refine ⟨fun m r hr => Machine.set_regs_of_ne ?_, fun m x _ => rfl⟩
  revert r
  decide

theorem addEnforcement_enforced_sample :
    ∃ blocks, addEnforcement 0 0 [sampleBlock] = some blocks ∧
      Sandboxed [] [] sampleBlock [] [] (.other (.original 0)) (.other (.original 1)) blocks ∧
      ∀ m : Machine, Enforced (fun _ => 0) allow blocks 0 0 m ↔
        (m.regs rsp).toNat % 16 = 8 ∨
          (m.mem.store (m.regs rsp - 8) (m.regs rdi)).load ((m.regs rsp - 8) &&& alignMask) = m.regs rdi :=
  addEnforcement_enforced_iff (A := []) (B := []) (fun _ => 0) allow_obeys (show sampleBlock.code = [] ++ _ :: _ :: [] from rfl)

/-- With a stack pointer that is a multiple of 16 the function gets what happens to be below the first push. -/
theorem first_argument_lost : ∃ blocks, addEnforcement 0 0 [sampleBlock] = some blocks ∧
    ¬ ∀ m : Machine, Enforced (fun _ => 0) allow blocks 0 0 m := by
  refine ⟨_, rfl, fun h => ?_⟩
  have hrdi := (List.cons.inj (h ⟨fun r => if r = rsp then 0x1000 else 1, fun _ => 0, Flags.ofWord 0⟩).arguments).1
  rw [callState_rdi] at hrdi
  revert hrdi
  decide +kernel

end Egalito.SyscallSandbox
