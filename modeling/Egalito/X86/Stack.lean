import Egalito.X86.Machine
/-!
# Code between saves and restores

`Keeps e` says of code that it leaves the stack pointer as it was, and that at
no time it changes the `e` bytes above it. A push in front and the pop behind
turn code that keeps `e + 8` bytes into code that keeps `e`.
-/

namespace Egalito.X86

open Lib

section Stack

variable {I : Type} {exec : Machine → I → Machine} {m m' : Machine} {r r' : Register} {v x : Word} {e d : Nat}

/-! ## Registers and the top of the stack -/

@[simp]
theorem Machine.set_regs_self : (m.set r v).regs r = v := Function.update_self ..

theorem Machine.set_regs_of_ne (h : r' ≠ r) : (m.set r v).regs r' = m.regs r' := Function.update_of_ne h ..

@[simp]
theorem Machine.set_mem : (m.set r v).mem = m.mem := rfl

@[simp]
theorem Machine.set_flags : (m.set r v).flags = m.flags := rfl

@[simp]
theorem Machine.pushWord_rsp : (m.pushWord v).regs rsp = m.regs rsp - 8 :=
  show (m.set rsp (m.regs rsp - 8)).regs rsp = _ from set_regs_self

theorem Machine.pushWord_regs (h : r ≠ rsp) : (m.pushWord v).regs r = m.regs r := Function.update_of_ne h ..

@[simp]
theorem Machine.pushWord_flags : (m.pushWord v).flags = m.flags := rfl

@[simp]
theorem Machine.dropWord_rsp : m.dropWord.regs rsp = m.regs rsp + 8 := Machine.set_regs_self

theorem Machine.dropWord_regs (h : r ≠ rsp) : m.dropWord.regs r = m.regs r := Function.update_of_ne h ..

@[simp]
theorem Memory.load_store (mem : Memory) (a v : Word) : (mem.store a v).load a = v :=
  readWord_writeWord (n := 8) (by norm_num)

theorem Memory.load_store_of_apart {mem : Memory} {a b v : Word} (h : Apart 8 8 a b) :
    (mem.store a v).load b = mem.load b := readWord_writeWord_of_apart (n := 8) h

theorem Memory.load_congr {mem mem' : Memory} {a : Word} (h : ∀ x, (x - a).toNat < 8 → mem' x = mem x) :
    mem'.load a = mem.load a := by
  refine readWord_congr fun i hi => h _ ?_
  rwa [toNat_offset (by omega)]

theorem Memory.store_of_le {mem : Memory} {a v x : Word} (h : 8 ≤ (x - a).toNat) : mem.store a v x = mem x :=
  writeWord_of_le (n := 8) h

/-- How far a byte is above a stack pointer that was moved down. -/
theorem toNat_above_sub {s : Word} (hx : (x - s).toNat < e) (hd : e + d ≤ 2 ^ 64) :
    (x - (s - BitVec.ofNat 64 d)).toNat = (x - s).toNat + d := by
  have he : x - (s - BitVec.ofNat 64 d) = x - s + BitVec.ofNat 64 d := by ring
  rw [he, BitVec.toNat_add, BitVec.toNat_ofNat, Nat.mod_eq_of_lt (show d < 2 ^ 64 by omega), Nat.mod_eq_of_lt (by omega)]

/-! ## Saved values -/

/-- What a push saves. -/
inductive Slot
  | reg (r : Register)
  | flags
deriving DecidableEq, Repr

namespace Slot

def save : Slot → Instr
  | reg r => .push r
  | flags => .pushFlags

def restore : Slot → Instr
  | reg r => .pop r
  | flags => .popFlags

def value (m : Machine) : Slot → Word
  | reg r => m.regs r
  | flags => m.flags.toWord

def put (m : Machine) (v : Word) : Slot → Machine
  | reg r => m.set r v
  | flags => { m with flags := Flags.ofWord v }

/-- The value is what it was. -/
def Same (m m' : Machine) : Slot → Prop
  | reg r => m'.regs r = m.regs r
  | flags => m'.flags = m.flags

theorem save_exec (s : Slot) : s.save.exec m = m.pushWord (s.value m) := by cases s <;> rfl

theorem restore_exec (s : Slot) : s.restore.exec m = s.put m.dropWord m.top := by cases s <;> rfl

@[simp]
theorem put_mem (s : Slot) : (s.put m v).mem = m.mem := by cases s <;> rfl

theorem put_same (s : Slot) : s.Same m (s.put m' (s.value m)) := by
  cases s with
  | reg r => exact Machine.set_regs_self
  | flags => exact Flags.ofWord_toWord m.flags

/-- Putting a value back changes no other one. -/
theorem put_other {s t : Slot} (h : t ≠ s) : t.Same m (s.put m v) := by
  cases s <;> cases t
  · exact Machine.set_regs_of_ne fun he => h (he ▸ rfl)
  · rfl
  · rfl
  · exact absurd rfl h

theorem Same.trans {m'' : Machine} {s : Slot} (h : s.Same m m') (h' : s.Same m' m'') : s.Same m m'' := by
  cases s with
  | reg r => exact Eq.trans h' h
  | flags => exact Eq.trans h' h

end Slot

/-! ## Code in between -/

/-- Instructions of the machine, and others with a meaning of their own. -/
def execWith (exec : Machine → I → Machine) (m : Machine) : Instr ⊕ I → Machine
  | .inl i => i.exec m
  | .inr i => exec m i

structure Keeps {J : Type} (exec : Machine → J → Machine) (e : Nat) (code : List J) : Prop where
  rsp : ∀ m, (code.foldl exec m).regs rsp = m.regs rsp
  above : ∀ m p, p <+: code → ∀ x, (x - m.regs X86.rsp).toNat < e → (p.foldl exec m).mem x = m.mem x

/-- `code` after the save of a value and before its restore. -/
def saved (s : Slot) (code : List (Instr ⊕ I)) : List (Instr ⊕ I) := .inl s.save :: code ++ [.inl s.restore]

variable {code : List (Instr ⊕ I)} {s t : Slot}

theorem foldl_saved : (saved s code).foldl (execWith exec) m =
    s.put (code.foldl (execWith exec) (m.pushWord (s.value m))).dropWord
      (code.foldl (execWith exec) (m.pushWord (s.value m))).top := by
  rw [saved, List.cons_append, List.foldl_cons, List.foldl_append, List.foldl_cons, List.foldl_nil, execWith, execWith,
    Slot.save_exec, Slot.restore_exec]

theorem Keeps.top (h : Keeps (execWith exec) (e + 8) code) (v : Word) : (code.foldl (execWith exec) (m.pushWord v)).top = v := by
  rw [Machine.top, h.rsp, Memory.load_congr fun x hx => h.above _ code (List.prefix_refl code) x (hx.trans_le (by omega)),
    Machine.pushWord_rsp]
  exact Memory.load_store ..

theorem Keeps.saved (h : Keeps (execWith exec) (e + 8) code) (he : e + 8 ≤ 2 ^ 64) :
    Keeps (execWith exec) e (X86.saved s code) := by
  have habove : ∀ (m : Machine) p, p <+: code → ∀ x, (x - m.regs X86.rsp).toNat < e →
      (p.foldl (execWith exec) (m.pushWord (s.value m))).mem x = m.mem x := by
    intro m p hp x hx
    have hdist : (x - (m.regs X86.rsp - 8)).toNat = (x - m.regs X86.rsp).toNat + 8 := toNat_above_sub hx he
    rw [h.above _ p hp x (by rw [Machine.pushWord_rsp]; omega)]
    exact Memory.store_of_le (by omega)
  refine ⟨fun m => ?_, fun m p hp x hx => ?_⟩
  · rw [foldl_saved, h.top]
    by_cases hs : s = .reg X86.rsp
    · subst hs
      exact Machine.set_regs_self
    · have hother : (Slot.reg X86.rsp).Same _ _ := Slot.put_other (m := (code.foldl (execWith exec) (m.pushWord (s.value m))).dropWord)
        (v := s.value m) (Ne.symm hs)
      refine Eq.trans hother ?_
      rw [Machine.dropWord_rsp, h.rsp, Machine.pushWord_rsp]
      ring
  · cases p with
    | nil => rfl
    | cons i p =>
      obtain ⟨rfl, hq⟩ := List.cons_prefix_cons.1 hp
      rcases List.prefix_concat_iff.1 hq with rfl | hq
      · rw [← List.cons_append, ← X86.saved, foldl_saved, Slot.put_mem]
        exact habove m code (List.prefix_refl code) x hx
      · rw [List.foldl_cons, execWith, Slot.save_exec]
        exact habove m p hq x hx

theorem Keeps.saved_same (h : Keeps (execWith exec) (e + 8) code) : s.Same m ((X86.saved s code).foldl (execWith exec) m) := by
  rw [foldl_saved, h.top]
  exact Slot.put_same s

/-- What the code in between keeps is still kept. -/
theorem Keeps.saved_other (h : Keeps (execWith exec) (e + 8) code) (ht : ∀ m, t.Same m (code.foldl (execWith exec) m))
    (hrsp : t ≠ .reg X86.rsp) : t.Same m ((X86.saved s code).foldl (execWith exec) m) := by
  by_cases hts : t = s
  · subst hts
    exact h.saved_same
  · rw [foldl_saved]
    refine Slot.Same.trans ?_ (Slot.put_other hts)
    have hdrop : t.Same (code.foldl (execWith exec) (m.pushWord (s.value m)))
        (code.foldl (execWith exec) (m.pushWord (s.value m))).dropWord := by
      cases t with
      | reg r => exact Machine.dropWord_regs fun he => hrsp (he ▸ rfl)
      | flags => rfl
    have hpush : t.Same m (m.pushWord (s.value m)) := by
      cases t with
      | reg r => exact Machine.pushWord_regs fun he => hrsp (he ▸ rfl)
      | flags => rfl
    exact hpush.trans ((ht _).trans hdrop)

/-! ## Other instructions in between -/

/-- An instruction that leaves the stack pointer and the memory alone. -/
structure Instr.Quiet (i : Instr) : Prop where
  rsp : ∀ m : Machine, (i.exec m).regs X86.rsp = m.regs X86.rsp
  mem : ∀ m : Machine, (i.exec m).mem = m.mem

theorem Keeps.cons {i : Instr} (h : Keeps (execWith exec) e code) (hi : i.Quiet) :
    Keeps (execWith exec) e (.inl i :: code) := by
  refine ⟨fun m => (h.rsp _).trans (hi.rsp m), fun m p hp x hx => ?_⟩
  cases p with
  | nil => rfl
  | cons k p =>
    obtain ⟨rfl, hq⟩ := List.cons_prefix_cons.1 hp
    refine (h.above (i.exec m) p hq x (by rwa [hi.rsp])).trans ?_
    rw [hi.mem]

theorem cons_same {i : Instr} (hcode : ∀ m, t.Same m (code.foldl (execWith exec) m)) (hi : t.Same m (i.exec m)) :
    t.Same m ((Sum.inl i :: code).foldl (execWith exec) m) := hi.trans (hcode _)

/-! ## Several saves -/

/-- `code` with the saves of `slots` before it and the restores behind it. -/
def nested (code : List (Instr ⊕ I)) (slots : List Slot) : List (Instr ⊕ I) := slots.foldr saved code

variable {slots : List Slot}

theorem nested_eq : nested code slots =
    (slots.map Slot.save).map .inl ++ code ++ (slots.reverse.map Slot.restore).map .inl := by
  induction slots with
  | nil => simp [nested]
  | cons s slots ih =>
    rw [nested, List.foldr_cons, ← nested, ih, saved]
    simp

theorem Keeps.nested (h : Keeps (execWith exec) (e + 8 * slots.length) code) (he : e + 8 * slots.length ≤ 2 ^ 64) :
    Keeps (execWith exec) e (X86.nested code slots) := by
  induction slots generalizing e with
  | nil => exact h
  | cons s slots ih =>
    have hlen : e + 8 * (s :: slots).length = e + 8 + 8 * slots.length := by rw [List.length_cons]; omega
    rw [hlen] at h he
    exact (ih h he).saved (by omega)

/-- All that is saved is restored. -/
theorem Keeps.nested_same (h : Keeps (execWith exec) (e + 8 * slots.length) code) (he : e + 8 * slots.length ≤ 2 ^ 64)
    (ht : t ∈ slots) : t.Same m ((X86.nested code slots).foldl (execWith exec) m) := by
  by_cases hrsp : t = .reg X86.rsp
  · subst hrsp
    exact (h.nested he).rsp m
  · induction slots generalizing e m with
    | nil => cases ht
    | cons s slots ih =>
      have hlen : e + 8 * (s :: slots).length = e + 8 + 8 * slots.length := by rw [List.length_cons]; omega
      rw [hlen] at h he
      have hkeeps := h.nested he
      rcases List.mem_cons.1 ht with rfl | ht
      · exact hkeeps.saved_same
      · exact hkeeps.saved_other (fun m => ih h he ht) hrsp

/-- What the code in between keeps is kept, whether it is saved or not. -/
theorem Keeps.nested_other (h : Keeps (execWith exec) (e + 8 * slots.length) code) (he : e + 8 * slots.length ≤ 2 ^ 64)
    (ht : ∀ m, t.Same m (code.foldl (execWith exec) m)) (hrsp : t ≠ .reg X86.rsp) :
    t.Same m ((X86.nested code slots).foldl (execWith exec) m) := by
  induction slots generalizing e m with
  | nil => exact ht m
  | cons s slots ih =>
    have hlen : e + 8 * (s :: slots).length = e + 8 + 8 * slots.length := by rw [List.length_cons]; omega
    rw [hlen] at h he
    exact (h.nested he).saved_other (fun m => ih h he) hrsp

theorem foldl_save_rsp : ((slots.map Slot.save).foldl (fun m i => i.exec m) m).regs rsp =
    m.regs rsp - BitVec.ofNat 64 (8 * slots.length) := by
  induction slots generalizing m with
  | nil => simp
  | cons s slots ih =>
    rw [List.map_cons, List.foldl_cons, ih, Slot.save_exec, Machine.pushWord_rsp, List.length_cons, Nat.mul_add,
      BitVec.ofNat_add, show BitVec.ofNat 64 (8 * 1) = (8 : Word) from rfl]
    ring

/-- Code that keeps bytes keeps them as well among instructions of the machine. -/
theorem Keeps.map_inr {code : List I} (h : Keeps exec e code) : Keeps (execWith exec) e (code.map .inr) := by
  have hfold : ∀ (p : List I) m, (p.map Sum.inr).foldl (execWith exec) m = p.foldl exec m := fun p m => by
    rw [List.foldl_map]
    rfl
  refine ⟨fun m => (hfold code m ▸ h.rsp m), fun m p hp x hx => ?_⟩
  obtain ⟨q, hq, rfl⟩ := List.prefix_map_iff.1 hp
  rw [hfold]
  exact h.above m q hq x hx

/-! ## A stack pointer that is moved down and up again -/

/-- `lea disp(%rsp),%rsp` -/
def moveStack (disp : Word) : Instr := .lea rsp ⟨some rsp, none, 1, disp⟩

theorem moveStack_exec (disp : Word) : (moveStack disp).exec m = m.set rsp (m.regs rsp + disp) := by
  simp [moveStack, Instr.exec, Operand.address]

def moved (d : Nat) (code : List (Instr ⊕ I)) : List (Instr ⊕ I) :=
  .inl (moveStack (-BitVec.ofNat 64 d)) :: code ++ [.inl (moveStack (BitVec.ofNat 64 d))]

theorem foldl_moved (h : Keeps (execWith exec) e code) : (moved d code).foldl (execWith exec) m =
    (code.foldl (execWith exec) (m.set rsp (m.regs rsp - BitVec.ofNat 64 d))).set rsp (m.regs rsp) := by
  rw [moved, List.cons_append, List.foldl_cons, List.foldl_append, List.foldl_cons, List.foldl_nil, execWith, execWith,
    moveStack_exec, moveStack_exec, ← BitVec.sub_eq_add_neg, h.rsp, Machine.set_regs_self, BitVec.sub_add_cancel]

/-- The bytes that the stack pointer was moved over are kept as well. -/
theorem Keeps.moved_above (h : Keeps (execWith exec) e code) {p : List (Instr ⊕ I)} (hp : p <+: X86.moved d code)
    (hx : (x - (m.regs X86.rsp - BitVec.ofNat 64 d)).toNat < e) : (p.foldl (execWith exec) m).mem x = m.mem x := by
  have hinner : ∀ q, q <+: code →
      (q.foldl (execWith exec) (m.set X86.rsp (m.regs X86.rsp - BitVec.ofNat 64 d))).mem x = m.mem x := fun q hq =>
    h.above _ q hq x (by rwa [Machine.set_regs_self])
  cases p with
  | nil => rfl
  | cons i p =>
    obtain ⟨rfl, hq⟩ := List.cons_prefix_cons.1 hp
    rcases List.prefix_concat_iff.1 hq with rfl | hq
    · rw [← List.cons_append, ← X86.moved, foldl_moved h]
      exact hinner code (List.prefix_refl code)
    · rw [List.foldl_cons, execWith, moveStack_exec, ← BitVec.sub_eq_add_neg]
      exact hinner p hq

theorem moved_same (h : Keeps (execWith exec) e code) (ht : ∀ m, t.Same m (code.foldl (execWith exec) m))
    (hrsp : t ≠ .reg rsp) : t.Same m ((moved d code).foldl (execWith exec) m) := by
  rw [foldl_moved h]
  have hset : ∀ (m : Machine) v, t.Same m (m.set rsp v) := fun m v => Slot.put_other (s := .reg rsp) hrsp
  exact (hset _ _).trans ((ht _).trans (hset _ _))

end Stack

/-! ## Code in blocks

A function is a list of blocks with links between them. Execution falls through
from the end of a block to the next one; other instructions have a meaning of
their own, and the run stops where they have none.
-/

inductive Insn (I : Type)
  | plain (i : Instr)
  | jumpZero (block : Nat)
  | jump (block : Nat)
  | call (block : Nat)
  | ret
  | other (i : I)
deriving DecidableEq, Repr

/-- A block; its id is what links point to. -/
structure Block (I : Type) where
  id : Nat
  code : List (Insn I)
deriving DecidableEq, Repr

/-- The index of a block, and of an instruction in it. -/
abbrev Point := Nat × Nat

variable {I : Type}

def enter (blocks : List (Block I)) (block : Nat) (m : Machine) : Option (Point × Machine) :=
  (blocks.findIdx? (·.id = block)).map fun k => ((k, 0), m)

/-- One step from an instruction of the block at `i`; a return leaves the function. -/
def Insn.step (address : Point → Word) (other : I → Machine → Option Machine) (blocks : List (Block I)) (i j : Nat)
    (m : Machine) : Insn I → Option (Point × Machine)
  | plain k => some ((i, j + 1), k.exec m)
  | jumpZero block => if m.flags.zero then enter blocks block m else some ((i, j + 1), m)
  | jump block => enter blocks block m
  | call block => enter blocks block (m.pushWord (address (i, j + 1)))
  | ret => none
  | .other k => (other k m).map fun m' => ((i, j + 1), m')

section Run

variable (address : Point → Word) (other : I → Machine → Option Machine) (blocks : List (Block I))

def step : Point × Machine → Option (Point × Machine)
  | ((i, j), m) => blocks[i]?.bind fun b => (b.code[j]?).elim (some ((i + 1, 0), m)) (Insn.step address other blocks i j m)

def Reaches : Point × Machine → Point × Machine → Prop :=
  Relation.ReflTransGen fun x y => step address other blocks x = some y

end Run

variable {address : Point → Word} {other : I → Machine → Option Machine} {blocks : List (Block I)} {i j : Nat}
  {b : Block I} {pre post : List (Insn I)} {insn : Insn I} {m : Machine}

theorem step_at (hb : blocks[i]? = some b) (hcode : b.code = pre ++ insn :: post) :
    step address other blocks ((i, pre.length), m) = insn.step address other blocks i pre.length m := by
  simp [step, hb, hcode]

theorem step_end (hb : blocks[i]? = some b) : step address other blocks ((i, b.code.length), m) = some ((i + 1, 0), m) := by
  simp [step, hb]

/-- Plain instructions run one after the other. -/
theorem reaches_plain {ks : List Instr} {pre : List (Insn I)} {m : Machine} (hb : blocks[i]? = some b) (hcode : b.code = pre ++ ks.map .plain ++ post) :
    Reaches address other blocks ((i, pre.length), m) ((i, pre.length + ks.length), ks.foldl (fun m k => k.exec m) m) := by
  induction ks generalizing pre m with
  | nil => exact .refl
  | cons k ks ih =>
    have hstep : step address other blocks ((i, pre.length), m) = some ((i, pre.length + 1), k.exec m) :=
      step_at hb (show b.code = pre ++ .plain k :: (ks.map .plain ++ post) by
        rw [hcode, List.map_cons, List.append_assoc, List.cons_append])
    have hrest := @ih (pre ++ [.plain k]) (k.exec m) (by rw [hcode]; simp)
    rw [List.length_append, List.length_singleton] at hrest
    rw [List.length_cons, Nat.add_comm ks.length, ← Nat.add_assoc, List.foldl_cons]
    exact .head hstep hrest

theorem eq_of_reaches_of_stuck {x y : Point × Machine} (h : Reaches address other blocks x y)
    (hx : step address other blocks x = none) : y = x := by
  rcases h.cases_head with rfl | ⟨z, hstep, -⟩
  · rfl
  · rw [hx] at hstep
    cases hstep

/-- Steps are functions, so that there is one end of a run. -/
theorem Reaches.unique {x y z : Point × Machine} (hy : Reaches address other blocks x y) (hz : Reaches address other blocks x z)
    (hystuck : step address other blocks y = none) (hzstuck : step address other blocks z = none) : y = z := by
  have hright : Relator.RightUnique fun x y => step address other blocks x = some y := fun _ _ _ h h' =>
    Option.some.inj (h.symm.trans h')
  rcases Relation.ReflTransGen.total_of_right_unique hright hy hz with h | h
  · exact (eq_of_reaches_of_stuck h hystuck).symm
  · exact eq_of_reaches_of_stuck h hzstuck

end Egalito.X86
