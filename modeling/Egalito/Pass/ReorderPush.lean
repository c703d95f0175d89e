import Egalito.Analysis.ReachingDefVisit
import Mathlib
/-!
# Reordering the instructions of a block

`pass/reorderpush.cpp`. The pass never reorders pushes or pops among themselves:
`reorderPushes` is switched off. An instruction is given by its place in the old
block.
-/

open Egalito.Lib Egalito.Analysis.ReachingDef

namespace Egalito.Pass.ReorderPush

/-- The loop body of `visit` for one block; `choices` are the values of `rand`. -/
def newOrder (block : List Instruction) (choices : Nat → Nat) : Option (List Nat) :=
  if 100 < block.length ∨ block.length = 1 then some (List.range block.length)
  else do
    let reachingDef ← analyze block
    let closure := computeDependencyClosure block reachingDef.killMap false
    visitInstructionGroups closure (block.length + 1) (List.range block.length) [] choices

/-! ## What the instructions do -/

def place (r : Register) : List Location := (getReg r).toList

/-- The registers that the address of an operand is computed from. -/
def address : Operand → List Location
  | .mem m => (m.index.toList ++ m.base.toList).flatMap place
  | _ => []

def value : Operand → List Location
  | .reg r => place r
  | .imm => []
  | .mem _ => [.memory]

/-- What the processor reads and what it writes. -/
def touched (instr : Instruction) : List Location × List Location :=
  let addresses := instr.operands.flatMap address
  match instr.mnemonic, instr.operands with
  | .and, [source, target] | .add, [source, target] | .sub, [source, target] | .xor, [source, target] =>
    (addresses ++ value source ++ value target, value target ++ [.flags])
  | .cmp, [source, target] => (addresses ++ value source ++ value target, [.flags])
  | .lea, [_, target] => (addresses, value target)
  | .mov, [source, target] | .movabs, [source, target] | .movsxd, [source, target] | .movzx, [source, target] =>
    (addresses ++ value source, value target)
  | .push, [source] => (addresses ++ value source ++ [sp], [.memory, sp])
  | .pop, [target] => (addresses ++ [.memory, sp], value target ++ [sp])
  | _, _ => ([], [])

/-- The pass has barriers of its own choice. -/
def touches (instr : Instruction) : Effect :=
  if handler instr = some .barrier then .barrier
  else .accesses ((touched instr).1.map .read ++ (touched instr).2.map .write)

/-- The order has every instruction once, and conflicting ones as they were. -/
structure KeepsConflicts (block : List Instruction) (order : List Nat) : Prop where
  perm : order.Perm (List.range block.length)
  pairwise : order.Pairwise fun a b => ∀ one two, block[a]? = some one → block[b]? = some two →
    (touches one).Conflicts (touches two) → a < b

/-! ## The condition -/

/-- Whether the handler looks up the registers of these operands. -/
def recorded (instr : Instruction) : Bool :=
  match instr.mnemonic with
  | .and | .movabs => constant instr.operands
  | .add | .sub | .xor => arithmetic instr.operands
  | .cmp => compare instr.operands
  | .lea => load instr.operands
  | .mov | .movsxd | .movzx => move instr.operands
  | .push | .pop => stack instr.operands
  | .other => false
where
  constant : List Operand → Bool
    | [.imm, .reg _] => true
    | _ => false
  arithmetic : List Operand → Bool
    | [.imm, .reg _] | [.reg _, .reg _] | [.mem _, .reg _] => true
    | _ => false
  compare : List Operand → Bool
    | [.reg _, .reg _] | [.imm, .reg _] | [.imm, .mem _] => true
    | _ => false
  load : List Operand → Bool
    | [.mem _, .reg _] => true
    | _ => false
  move : List Operand → Bool
    | [.imm, .reg _] | [.reg _, .mem _] | [.mem _, .reg _] | [.reg _, .reg _] => true
    | _ => false
  stack : List Operand → Bool
    | [.reg _] | [.mem _] => true
    | _ => false

def isPhysical (r : Register) : Bool := (convertToPhysical r).isSome

/-- All registers of the operand are general purpose ones; a base can be `rip`. -/
def known : Operand → Bool
  | .reg r => isPhysical r
  | .imm => true
  | .mem m => m.index.all isPhysical && m.base.all fun r => r = .rip || isPhysical r

/-- Known registers wherever they are looked up, `movabs` with a constant only, and no `pop` of the
stack pointer. -/
structure Supported (instr : Instruction) : Prop where
  registers : recorded instr → ∀ op ∈ instr.operands, known op
  movabs : instr.mnemonic = .movabs → recorded instr
  pop : instr.mnemonic = .pop → ∀ r, instr.operands = [.reg r] → getReg r ≠ some sp

def PopsMemory (instr : Instruction) : Prop := instr.mnemonic = .pop ∧ ∃ m, instr.operands = [.mem m]

/-- One pops to the memory and the other one reads memory. -/
def PopConflict (one two : Instruction) : Prop :=
  PopsMemory one ∧ (touches two).Reads .memory ∨ (touches one).Reads .memory ∧ PopsMemory two

/-- Other conflicts lead from each `pop` to the memory to the reads of memory behind it, and the
other way round. -/
def PopsOrdered (block : List Instruction) : Prop :=
  ∀ i j one two, i < j → block[i]? = some one → block[j]? = some two → PopConflict one two →
    Chain (block.map effectOf) j i

/-! ## The handlers record what the instructions do -/

theorem getReg_eq_some {r : Register} {l : Location} : getReg r = some l ↔ isPhysical r ∧ place r = [l] := by
  cases r <;> simp [getReg, place, isPhysical, convertToPhysical]

theorem handleMem_eq_some {m : Mem} {mem : List Access} :
    handleMem m = some mem ↔ known (.mem m) ∧ (address (.mem m)).map .read = mem := by
  obtain ⟨base, index⟩ := m
  rcases base with _ | (n | _ | _) <;> rcases index with _ | (k | _ | _) <;>
    simp [handleMem, known, address, place, getReg, isPhysical, convertToPhysical]

theorem memory_notMem_place (r : Register) : .memory ∉ place r := by
  cases r <;> simp [place, getReg, convertToPhysical]

theorem memory_notMem_address (op : Operand) : .memory ∉ address op := by
  cases op with
  | reg r => exact List.not_mem_nil
  | imm => exact List.not_mem_nil
  | mem m =>
    unfold address
    rw [List.mem_flatMap]
    rintro ⟨r, -, hr⟩
    exact memory_notMem_place r hr

/-- The accesses of a list, as sets. -/
def Records (list : List Access) (reads writes : List Location) : Prop :=
  (∀ l, .read l ∈ list ↔ l ∈ reads) ∧ ∀ l, .write l ∈ list ↔ l ∈ writes

variable {list : List Access} {ops : List Operand}

theorem fillAddOrSub_records (h : fillAddOrSub ops = some (.accesses list)) :
    ∃ source target, ops = [source, target] ∧
      Records list (ops.flatMap address ++ value source ++ value target) (value target ++ [.flags]) := by
  unfold fillAddOrSub at h
  split at h <;> simp [Option.bind_eq_some_iff, getReg_eq_some, handleMem_eq_some] at h
  · obtain ⟨reg1, ⟨-, h₁⟩, rfl⟩ := h
    exact ⟨_, _, rfl, by simp [Records, address, value, h₁]⟩
  · obtain ⟨reg0, ⟨-, h₀⟩, reg1, ⟨-, h₁⟩, rfl⟩ := h
    exact ⟨_, _, rfl, by simp [Records, address, value, h₀, h₁]⟩
  · obtain ⟨-, reg1, ⟨-, h₁⟩, rfl⟩ := h
    exact ⟨_, _, rfl, by simp [Records, address, value, h₁]⟩

theorem fillAnd_records (h : fillAnd ops = some (.accesses list)) :
    ∃ source target, ops = [source, target] ∧
      Records list (ops.flatMap address ++ value source ++ value target) (value target ++ [.flags]) := by
  unfold fillAnd at h
  split at h <;> simp [Option.bind_eq_some_iff, getReg_eq_some] at h
  obtain ⟨reg1, ⟨-, h₁⟩, rfl⟩ := h
  exact ⟨_, _, rfl, by simp [Records, address, value, h₁]⟩

theorem fillCmp_records (h : fillCmp ops = some (.accesses list)) :
    ∃ source target, ops = [source, target] ∧
      Records list (ops.flatMap address ++ value source ++ value target) [.flags] := by
  unfold fillCmp at h
  split at h <;> simp [Option.bind_eq_some_iff, getReg_eq_some, handleMem_eq_some] at h
  · obtain ⟨reg0, ⟨-, h₀⟩, reg1, ⟨-, h₁⟩, rfl⟩ := h
    exact ⟨_, _, rfl, by simp [Records, address, value, h₀, h₁]⟩
  · obtain ⟨reg1, ⟨-, h₁⟩, rfl⟩ := h
    exact ⟨_, _, rfl, by simp [Records, address, value, h₁]⟩
  · obtain ⟨-, rfl⟩ := h
    exact ⟨_, _, rfl, by simp [Records, address, value]⟩

theorem fillLea_records (h : fillLea ops = some (.accesses list)) :
    ∃ source target, ops = [source, target] ∧ Records list (ops.flatMap address) (value target) := by
  unfold fillLea at h
  split at h <;> simp [Option.bind_eq_some_iff, getReg_eq_some, handleMem_eq_some] at h
  obtain ⟨-, reg1, ⟨-, h₁⟩, rfl⟩ := h
  exact ⟨_, _, rfl, by simp [Records, address, value, h₁]⟩

theorem fillMov_records (h : fillMov ops = some (.accesses list)) :
    ∃ source target, ops = [source, target] ∧
      Records list (ops.flatMap address ++ value source) (value target) := by
  unfold fillMov at h
  split at h <;> simp [Option.bind_eq_some_iff, getReg_eq_some, handleMem_eq_some] at h
  · obtain ⟨reg1, ⟨-, h₁⟩, rfl⟩ := h
    exact ⟨_, _, rfl, by simp [Records, address, value, h₁]⟩
  · obtain ⟨reg0, ⟨-, h₀⟩, -, rfl⟩ := h
    exact ⟨_, _, rfl, by simp [Records, address, value, h₀, or_comm, or_assoc]⟩
  · obtain ⟨-, reg1, ⟨-, h₁⟩, rfl⟩ := h
    exact ⟨_, _, rfl, by simp [Records, address, value, h₁]⟩
  · obtain ⟨reg0, ⟨-, h₀⟩, reg1, ⟨-, h₁⟩, rfl⟩ := h
    exact ⟨_, _, rfl, by simp [Records, address, value, h₀, h₁]⟩

theorem fillMovabs_records (h : fillMovabs ops = some (.accesses list)) :
    ∃ source target, ops = [source, target] ∧
      Records list (ops.flatMap address ++ value source) (value target) := by
  unfold fillMovabs at h
  split at h <;> simp [Option.bind_eq_some_iff, getReg_eq_some] at h
  obtain ⟨reg1, ⟨-, h₁⟩, rfl⟩ := h
  exact ⟨_, _, rfl, by simp [Records, address, value, h₁]⟩

/-- The memory that a `push` reads is missing, but it also writes memory. -/
theorem fillPush_records (h : fillPush ops = some (.accesses list)) :
    ∃ source, ops = [source] ∧
      Records list (ops.flatMap address ++ (value source).filter (· ≠ .memory) ++ [sp]) [.memory, sp] := by
  unfold fillPush at h
  split at h <;> simp [Option.bind_eq_some_iff, getReg_eq_some, handleMem_eq_some] at h
  · obtain ⟨reg0, ⟨-, h₀⟩, rfl⟩ := h
    have hreg0 : reg0 ≠ .memory := by
      rintro rfl
      exact memory_notMem_place _ (h₀ ▸ List.mem_singleton_self _)
    exact ⟨_, rfl, by simp [Records, address, value, h₀, hreg0]⟩
  · obtain ⟨-, rfl⟩ := h
    exact ⟨_, rfl, by simp [Records, address, value]⟩

/-- The memory that a `pop` writes is missing. -/
theorem fillPop_records (h : fillPop ops = some (.accesses list)) :
    ∃ target, ops = [target] ∧
      Records list (ops.flatMap address ++ [.memory, sp]) ((value target).filter (· ≠ .memory) ++ [sp]) := by
  unfold fillPop at h
  split at h <;> simp [Option.bind_eq_some_iff, getReg_eq_some, handleMem_eq_some] at h
  · obtain ⟨reg0, ⟨-, h₀⟩, rfl⟩ := h
    have hreg0 : reg0 ≠ .memory := by
      rintro rfl
      exact memory_notMem_place _ (h₀ ▸ List.mem_singleton_self _)
    exact ⟨_, rfl, by simp [Records, address, value, h₀, hreg0]⟩
  · obtain ⟨-, rfl⟩ := h
    exact ⟨_, rfl, by simp [Records, address, value]⟩

/-- The handlers record what the instruction touches, but for the memory that a `push` reads or a
`pop` writes. -/
theorem handler_records {instr : Instruction} (h : handler instr = some (.accesses list)) :
    Records list ((touched instr).1.filter fun l => ¬ (instr.mnemonic = .push ∧ l = .memory))
      ((touched instr).2.filter fun l => ¬ (instr.mnemonic = .pop ∧ l = .memory)) := by
  obtain ⟨mnemonic, ops⟩ := instr
  unfold handler at h
  cases mnemonic with
  | and =>
    obtain ⟨source, target, rfl, hrecords⟩ := fillAnd_records h
    simpa [touched] using hrecords
  | add | sub | xor =>
    obtain ⟨source, target, rfl, hrecords⟩ := fillAddOrSub_records h
    simpa [touched] using hrecords
  | cmp =>
    obtain ⟨source, target, rfl, hrecords⟩ := fillCmp_records h
    simpa [touched] using hrecords
  | lea =>
    obtain ⟨source, target, rfl, hrecords⟩ := fillLea_records h
    simpa [touched] using hrecords
  | mov | movsxd | movzx =>
    obtain ⟨source, target, rfl, hrecords⟩ := fillMov_records h
    simpa [touched] using hrecords
  | movabs =>
    obtain ⟨source, target, rfl, hrecords⟩ := fillMovabs_records h
    simpa [touched] using hrecords
  | push =>
    obtain ⟨source, rfl, hrecords⟩ := fillPush_records h
    have haddress : (address source).filter (fun l => !decide (l = .memory)) = address source :=
      List.filter_eq_self.2 fun l hl => by
        simpa using fun (hmem : l = .memory) => memory_notMem_address source (hmem ▸ hl)
    simpa [touched, haddress, sp] using hrecords
  | pop =>
    obtain ⟨target, rfl, hrecords⟩ := fillPop_records h
    simpa [touched, sp] using hrecords
  | other => cases h

/-! ## The assertions -/

/-- `Accepted`, for what a handler returns. -/
def Passes (result : Option Effect) : Prop :=
  ∃ e, result = some e ∧ ∀ list, e = .accesses list → (writes list).Nodup

@[simp]
theorem passes_none : ¬ Passes none := by
  rintro ⟨e, he, -⟩
  cases he

@[simp]
theorem passes_barrier : Passes (some .barrier) := ⟨_, rfl, fun _ => nofun⟩

@[simp]
theorem passes_accesses : Passes (some (.accesses list)) ↔ (writes list).Nodup := by
  constructor
  · rintro ⟨e, he, hnodup⟩
    cases he
    exact hnodup list rfl
  · intro hnodup
    refine ⟨_, rfl, ?_⟩
    rintro _ ⟨⟩
    exact hnodup

@[simp]
theorem known_imm : known .imm := rfl

@[simp]
theorem known_reg {r : Register} : known (.reg r) ↔ ∃ n, r = .physical n := by
  cases r <;> simp [known, isPhysical, convertToPhysical]

@[simp]
theorem passes_getReg {r : Register} {f : Location → Option Effect} :
    Passes ((getReg r).bind f) ↔ ∃ n, r = .physical n ∧ Passes (f (.reg n)) := by
  cases r <;> simp [getReg, convertToPhysical]

@[simp]
theorem passes_handleMem {m : Mem} {f : List Access → Option Effect} :
    Passes ((handleMem m).bind f) ↔ known (.mem m) ∧ Passes (f ((address (.mem m)).map .read)) := by
  cases h : handleMem m with
  | none =>
    have hunknown : ¬ known (.mem m) := fun hknown => by
      have := handleMem_eq_some.2 ⟨hknown, rfl⟩
      rw [h] at this
      cases this
    simp [hunknown]
  | some mem =>
    obtain ⟨hknown, rfl⟩ := handleMem_eq_some.1 h
    simp [hknown]

@[simp]
theorem writes_append (list list' : List Access) : writes (list ++ list') = writes list ++ writes list' := by
  unfold writes
  exact List.filterMap_append

@[simp]
theorem writes_map_read (locations : List Location) : writes (locations.map .read) = [] := by
  unfold writes
  rw [List.filterMap_map]
  exact List.filterMap_eq_nil_iff.2 fun _ _ => rfl

@[simp]
theorem writes_cons_read (l : Location) (list : List Access) : writes (.read l :: list) = writes list := rfl

@[simp]
theorem writes_cons_write (l : Location) (list : List Access) : writes (.write l :: list) = l :: writes list := rfl

@[simp]
theorem writes_nil : writes [] = [] := rfl

theorem fillAnd_passes (ops : List Operand) :
    Passes (fillAnd ops) ↔ (recorded.constant ops → ∀ op ∈ ops, known op) := by
  unfold fillAnd recorded.constant
  split <;> simp

theorem fillAddOrSub_passes (ops : List Operand) :
    Passes (fillAddOrSub ops) ↔ (recorded.arithmetic ops → ∀ op ∈ ops, known op) := by
  unfold fillAddOrSub recorded.arithmetic
  split <;> simp

theorem fillCmp_passes (ops : List Operand) :
    Passes (fillCmp ops) ↔ (recorded.compare ops → ∀ op ∈ ops, known op) := by
  unfold fillCmp recorded.compare
  split <;> simp

theorem fillLea_passes (ops : List Operand) :
    Passes (fillLea ops) ↔ (recorded.load ops → ∀ op ∈ ops, known op) := by
  unfold fillLea recorded.load
  split <;> simp

theorem fillMov_passes (ops : List Operand) :
    Passes (fillMov ops) ↔ (recorded.move ops → ∀ op ∈ ops, known op) := by
  unfold fillMov recorded.move
  split <;> simp

theorem fillMovabs_passes (ops : List Operand) :
    Passes (fillMovabs ops) ↔ (recorded.constant ops → ∀ op ∈ ops, known op) ∧ recorded.constant ops := by
  unfold fillMovabs recorded.constant
  split <;> simp

theorem fillPush_passes (ops : List Operand) :
    Passes (fillPush ops) ↔ (recorded.stack ops → ∀ op ∈ ops, known op) := by
  unfold fillPush recorded.stack
  split <;> simp [sp]

/-- With the stack pointer as the target, a `pop` writes it twice. -/
theorem fillPop_passes (ops : List Operand) :
    Passes (fillPop ops) ↔ (recorded.stack ops → ∀ op ∈ ops, known op) ∧
      ∀ r, ops = [.reg r] → getReg r ≠ some sp := by
  unfold fillPop recorded.stack
  split
  case h_1 r => cases r <;> simp [sp, getReg, convertToPhysical]
  case h_2 => simp
  case h_3 hreg _ =>
    have hnone : ∀ r, ops ≠ [.reg r] := hreg
    simp [hnone]

theorem accepted_iff_supported (instr : Instruction) : Accepted instr ↔ Supported instr := by
  have hsupported : Supported instr ↔ (recorded instr → ∀ op ∈ instr.operands, known op) ∧
      (instr.mnemonic = .movabs → recorded instr) ∧
      (instr.mnemonic = .pop → ∀ r, instr.operands = [.reg r] → getReg r ≠ some sp) :=
    ⟨fun h => ⟨h.registers, h.movabs, h.pop⟩, fun h => ⟨h.1, h.2.1, h.2.2⟩⟩
  rw [hsupported]
  change Passes (handler instr) ↔ _
  obtain ⟨mnemonic, ops⟩ := instr
  unfold handler recorded
  cases mnemonic with
  | and => simp [fillAnd_passes]
  | add | sub | xor => simp [fillAddOrSub_passes]
  | cmp => simp [fillCmp_passes]
  | lea => simp [fillLea_passes]
  | mov | movsxd | movzx => simp [fillMov_passes]
  | movabs => simp [fillMovabs_passes]
  | push => simp [fillPush_passes]
  | pop => simp [fillPop_passes]
  | other => simp

/-! ## Conflicts and recorded conflicts -/

theorem conflicts_symm {e e' : Effect} (h : e.Conflicts e') : e'.Conflicts e := by
  rcases h with h | h | ⟨l, ⟨hw, hr | hw'⟩ | ⟨hr, hw⟩⟩
  · exact .inr (.inl h)
  · exact .inl h
  · exact .inr (.inr ⟨l, .inr ⟨hr, hw⟩⟩)
  · exact .inr (.inr ⟨l, .inl ⟨hw', .inr hw⟩⟩)
  · exact .inr (.inr ⟨l, .inl ⟨hw, .inl hr⟩⟩)

/-- The two effects of an instruction that passes the assertions. -/
structure Effects (instr : Instruction) : Prop where
  barrier : touches instr = .barrier ↔ effectOf instr = .barrier
  writes : ∀ l, (touches instr).Writes l ↔ (effectOf instr).Writes l ∨ PopsMemory instr ∧ l = .memory
  reads : ∀ l, (effectOf instr).Reads l → (touches instr).Reads l
  reads' : ∀ l, (touches instr).Reads l → (effectOf instr).Reads l ∨ l = .memory ∧ (effectOf instr).Writes l
  pop : PopsMemory instr → (effectOf instr).Reads .memory

theorem handler_popsMemory {instr : Instruction} (h : PopsMemory instr) : handler instr ≠ some .barrier := by
  obtain ⟨mnemonic, ops⟩ := instr
  obtain ⟨rfl, m, rfl⟩ := h
  simp [handler, fillPop, Option.bind_eq_some_iff]

theorem popsMemory_iff {instr : Instruction} (h : handler instr = some (.accesses list)) :
    PopsMemory instr ↔ instr.mnemonic = .pop ∧ .memory ∈ (touched instr).2 := by
  obtain ⟨mnemonic, ops⟩ := instr
  constructor
  · rintro ⟨rfl, m, rfl⟩
    exact ⟨rfl, by simp [touched, value]⟩
  · rintro ⟨rfl, hmem⟩
    obtain ⟨target, rfl, -⟩ := fillPop_records h
    refine ⟨rfl, ?_⟩
    cases target with
    | reg r => simp [touched, value, sp, memory_notMem_place] at hmem
    | imm => simp [touched, value, sp] at hmem
    | mem m => exact ⟨m, rfl⟩

theorem effects_of_accepted {instr : Instruction} (h : Accepted instr) : Effects instr := by
  obtain ⟨e, he, -⟩ := h
  have heffect : effectOf instr = e := by
    unfold effectOf
    rw [he]
    rfl
  cases e with
  | barrier =>
    have htouches : touches instr = .barrier := if_pos he
    refine ⟨by rw [htouches, heffect], fun l => ?_, fun l => ?_, fun l => ?_, fun hpop => ?_⟩
    · rw [htouches, heffect]
      exact ⟨fun _ => .inl trivial, fun _ => trivial⟩
    · rw [htouches, heffect]
      exact id
    · rw [htouches, heffect]
      exact .inl
    · exact absurd he (handler_popsMemory hpop)
  | accesses list =>
    have htouches : touches instr = .accesses ((touched instr).1.map .read ++ (touched instr).2.map .write) :=
      if_neg (by rw [he]; nofun)
    have hwrites : ∀ l, (touches instr).Writes l ↔ l ∈ (touched instr).2 := fun l => by
      rw [htouches]
      simp [Effect.Writes]
    have hreads : ∀ l, (touches instr).Reads l ↔ l ∈ (touched instr).1 := fun l => by
      rw [htouches]
      simp [Effect.Reads]
    obtain ⟨hread, hwrite⟩ := handler_records he
    simp only [List.mem_filter, decide_eq_true_eq] at hread hwrite
    refine ⟨by simp [htouches, heffect], fun l => ?_, fun l hl => ?_, fun l hl => ?_, fun hpop => ?_⟩
    · rw [hwrites, heffect, popsMemory_iff he]
      change _ ↔ .write l ∈ list ∨ _
      rw [hwrite]
      constructor
      · intro hl
        by_cases hpop : instr.mnemonic = .pop ∧ l = .memory
        · exact .inr ⟨⟨hpop.1, hpop.2 ▸ hl⟩, hpop.2⟩
        · exact .inl ⟨hl, hpop⟩
      · rintro (hl | ⟨⟨-, hl⟩, rfl⟩)
        · exact hl.1
        · exact hl
    · rw [heffect] at hl
      exact (hreads l).2 ((hread l).1 hl).1
    · rw [heffect]
      have hmem := (hreads l).1 hl
      by_cases hpush : instr.mnemonic = .push ∧ l = .memory
      · refine .inr ⟨hpush.2, (hwrite l).2 ⟨?_, fun hpop => ?_⟩⟩
        · obtain ⟨mnemonic, ops⟩ := instr
          obtain ⟨rfl, rfl⟩ := hpush
          obtain ⟨source, rfl, -⟩ := fillPush_records he
          simp [touched]
        · exact absurd (hpush.1.symm.trans hpop.1) nofun
      · exact .inl ((hread l).2 ⟨hmem, hpush⟩)
    · rw [heffect]
      refine (hread _).2 ⟨?_, fun hpush => absurd (hpop.1.symm.trans hpush.1) nofun⟩
      obtain ⟨mnemonic, ops⟩ := instr
      obtain ⟨rfl, m, rfl⟩ := hpop
      simp [touched]

/-- The conflicts that are not recorded are those of a `pop` to the memory. -/
theorem conflicts_iff {one two : Instruction} (h₁ : Effects one) (h₂ : Effects two) :
    (touches one).Conflicts (touches two) ↔ (effectOf one).Conflicts (effectOf two) ∨ PopConflict one two := by
  constructor
  · rintro (hb | hb | ⟨l, ⟨hw, hr | hw'⟩ | ⟨hr, hw⟩⟩)
    · exact .inl (.inl (h₁.barrier.1 hb))
    · exact .inl (.inr (.inl (h₂.barrier.1 hb)))
    · rcases (h₁.writes l).1 hw with hw | ⟨hpop, rfl⟩
      · rcases h₂.reads' l hr with hr | ⟨-, hw'⟩
        · exact .inl (.inr (.inr ⟨l, .inl ⟨hw, .inl hr⟩⟩))
        · exact .inl (.inr (.inr ⟨l, .inl ⟨hw, .inr hw'⟩⟩))
      · exact .inr (.inl ⟨hpop, hr⟩)
    · rcases (h₁.writes l).1 hw with hw | ⟨hpop, rfl⟩
      · rcases (h₂.writes l).1 hw' with hw' | ⟨hpop, rfl⟩
        · exact .inl (.inr (.inr ⟨l, .inl ⟨hw, .inr hw'⟩⟩))
        · exact .inl (.inr (.inr ⟨.memory, .inl ⟨hw, .inl (h₂.pop hpop)⟩⟩))
      · rcases (h₂.writes .memory).1 hw' with hw' | ⟨hpop', -⟩
        · exact .inl (.inr (.inr ⟨.memory, .inr ⟨h₁.pop hpop, hw'⟩⟩))
        · exact .inr (.inl ⟨hpop, h₂.reads _ (h₂.pop hpop')⟩)
    · rcases (h₂.writes l).1 hw with hw | ⟨hpop, rfl⟩
      · rcases h₁.reads' l hr with hr | ⟨-, hw'⟩
        · exact .inl (.inr (.inr ⟨l, .inr ⟨hr, hw⟩⟩))
        · exact .inl (.inr (.inr ⟨l, .inl ⟨hw', .inr hw⟩⟩))
      · exact .inr (.inr ⟨hr, hpop⟩)
  · rintro ((hb | hb | ⟨l, ⟨hw, hr | hw'⟩ | ⟨hr, hw⟩⟩) | ⟨hpop, hr⟩ | ⟨hr, hpop⟩)
    · exact .inl (h₁.barrier.2 hb)
    · exact .inr (.inl (h₂.barrier.2 hb))
    · exact .inr (.inr ⟨l, .inl ⟨(h₁.writes l).2 (.inl hw), .inl (h₂.reads l hr)⟩⟩)
    · exact .inr (.inr ⟨l, .inl ⟨(h₁.writes l).2 (.inl hw), .inr ((h₂.writes l).2 (.inl hw'))⟩⟩)
    · exact .inr (.inr ⟨l, .inr ⟨h₁.reads l hr, (h₂.writes l).2 (.inl hw)⟩⟩)
    · exact .inr (.inr ⟨.memory, .inl ⟨(h₁.writes _).2 (.inr ⟨hpop, rfl⟩), .inl hr⟩⟩)
    · exact .inr (.inr ⟨.memory, .inr ⟨hr, (h₂.writes _).2 (.inr ⟨hpop, rfl⟩)⟩⟩)

/-! ## The order -/

variable {block : List Instruction}

/-- The pass leaves the block as it is. -/
def Skipped (block : List Instruction) : Prop := 100 < block.length ∨ block.length = 1

theorem keepsConflicts_range (block : List Instruction) : KeepsConflicts block (List.range block.length) where
  perm := .refl _
  pairwise := List.pairwise_lt_range.imp fun hlt _ _ _ _ _ => hlt

theorem newOrder_of_not_skipped (hskipped : ¬ Skipped block) (choices : Nat → Nat) :
    newOrder block choices = analyze block >>= fun s =>
      visitInstructionGroups (computeDependencyClosure block s.killMap false) (block.length + 1)
        (List.range block.length) [] choices :=
  if_neg hskipped

theorem newOrder_none (hskipped : ¬ Skipped block) {instr : Instruction} (hinstr : instr ∈ block)
    (hunsupported : ¬ Supported instr) (choices : Nat → Nat) : newOrder block choices = none := by
  rw [newOrder_of_not_skipped hskipped,
    (analyze_spec block).2 ⟨instr, hinstr, mt (accepted_iff_supported instr).1 hunsupported⟩]
  rfl

/-- The orders that the choices lead to are the schedules under the chains of recorded conflicts. -/
theorem newOrder_iff (hskipped : ¬ Skipped block) (hsupported : ∀ instr ∈ block, Supported instr) :
    (∀ choices, ∃ order, newOrder block choices = some order ∧
      Schedules (Chain (block.map effectOf)) (List.range block.length) [] order) ∧
    ∀ order, Schedules (Chain (block.map effectOf)) (List.range block.length) [] order →
      ∃ choices, newOrder block choices = some order := by
  obtain ⟨s, hs, htracks⟩ := (analyze_spec block).1 fun i hi => (accepted_iff_supported i).2 (hsupported i hi)
  have hdeps : Covers (computeDependencyClosure block s.killMap false) = Chain (block.map effectOf) := by
    funext source dest
    exact propext (mem_computeDependencyClosure htracks source dest)
  have hnewOrder : ∀ choices, newOrder block choices =
      visitInstructionGroups (computeDependencyClosure block s.killMap false) (block.length + 1)
        (List.range block.length) [] choices := fun choices => by
    rw [newOrder_of_not_skipped hskipped, hs]
    rfl
  have hfuel : (List.range block.length).length < block.length + 1 := by simp
  constructor
  · intro choices
    rw [hnewOrder, ← hdeps]
    apply visitInstructionGroups_schedules _ _ hfuel
    · intro a ha b hab
      rw [hdeps] at hab
      exact .inr (List.mem_range.2 (Nat.lt_trans hab.lt (List.mem_range.1 ha)))
    · intro a b hab
      rw [hdeps] at hab
      exact hab.lt
  · intro order horder
    rw [← hdeps] at horder
    obtain ⟨choices, hchoices⟩ := exists_choices horder _ hfuel
    exact ⟨choices, by rw [hnewOrder, hchoices]⟩

/-- A conflict of what the instructions do is one that the analysis records, or one of a `pop`. -/
theorem chain_of_conflicts (hsupported : ∀ instr ∈ block, Supported instr) (hpops : PopsOrdered block)
    {i j : Nat} {one two : Instruction} (hij : i < j) (hi : block[i]? = some one) (hj : block[j]? = some two)
    (hconflicts : (touches one).Conflicts (touches two)) : Chain (block.map effectOf) j i := by
  have heffects : ∀ instr ∈ block, Effects instr := fun instr hinstr =>
    effects_of_accepted ((accepted_iff_supported instr).2 (hsupported instr hinstr))
  have h₁ := heffects one (List.mem_of_getElem? hi)
  have h₂ := heffects two (List.mem_of_getElem? hj)
  rcases (conflicts_iff h₁ h₂).1 hconflicts with hrecorded | hpop
  · exact .single ⟨hij, _, _, by rw [List.getElem?_map, hi]; rfl, by rw [List.getElem?_map, hj]; rfl, hrecorded⟩
  · exact hpops i j one two hij hi hj hpop

theorem keepsConflicts_of_schedules (hsupported : ∀ instr ∈ block, Supported instr) (hpops : PopsOrdered block)
    {order : List Nat} (h : Schedules (Chain (block.map effectOf)) (List.range block.length) [] order) :
    KeepsConflicts block order where
  perm := h.perm
  pairwise := by
    have hnodup : order.Nodup := h.perm.nodup_iff.2 List.nodup_range
    refine (hnodup.and (h.pairwise List.nodup_range fun x _ => List.not_mem_nil)).imp ?_
    rintro a b ⟨hne, hnot⟩ one two hone htwo hconflicts
    by_contra hle
    exact hnot (chain_of_conflicts hsupported hpops (by omega) htwo hone (conflicts_symm hconflicts))

/-- Where no chain holds a `pop` and a read of memory together, some choices turn them around. -/
theorem exists_order_of_not_chain {i j : Nat} (hi : i < j) (hj : j < block.length)
    (hchain : ¬ Chain (block.map effectOf) j i) :
    ∃ front back, Schedules (Chain (block.map effectOf)) (List.range block.length) [] (front ++ back) ∧
      j ∈ front ∧ i ∈ back := by
  apply exists_schedule_before
  · exact List.pairwise_lt_range.imp fun hlt hdep => by
      have := Chain.lt hdep
      omega
  · intro x hx
    exact Nat.lt_irrefl x hx.lt
  · intro x hx y hxy
    exact List.mem_range.2 (Nat.lt_trans hxy.lt (List.mem_range.1 hx))
  · intro x y z hxy hyz
    exact Relation.TransGen.trans hxy hyz
  · exact List.mem_range.2 hj
  · exact List.mem_range.2 (Nat.lt_trans hi hj)
  · exact Nat.ne_of_lt hi
  · exact hchain

/-- Every order that the pass can choose keeps the conflicts of the block, and the analysis passes
its assertions, exactly if the block is skipped, or its instructions are supported and a `pop` to the
memory is tied to the reads of memory by other conflicts. -/
theorem newOrder_keepsConflicts_iff (block : List Instruction) :
    (∀ choices, ∃ order, newOrder block choices = some order ∧ KeepsConflicts block order) ↔
      Skipped block ∨ (∀ instr ∈ block, Supported instr) ∧ PopsOrdered block := by
  constructor
  · intro hkeeps
    by_cases hskipped : Skipped block
    · exact .inl hskipped
    have hsupported : ∀ instr ∈ block, Supported instr := fun instr hinstr => by
      by_contra hunsupported
      obtain ⟨order, horder, -⟩ := hkeeps fun _ => 0
      rw [newOrder_none hskipped hinstr hunsupported] at horder
      cases horder
    refine .inr ⟨hsupported, fun i j one two hij hi hj hpop => ?_⟩
    by_contra hchain
    obtain ⟨front, back, hschedules, hfront, hback⟩ :=
      exists_order_of_not_chain hij (List.getElem?_eq_some_iff.1 hj).1 hchain
    obtain ⟨choices, hchoices⟩ := (newOrder_iff hskipped hsupported).2 _ hschedules
    obtain ⟨order, horder, hconflicts⟩ := hkeeps choices
    rw [hchoices] at horder
    cases horder
    have heffects : ∀ instr ∈ block, Effects instr := fun instr hinstr =>
      effects_of_accepted ((accepted_iff_supported instr).2 (hsupported instr hinstr))
    have htouches := (conflicts_iff (heffects one (List.mem_of_getElem? hi))
      (heffects two (List.mem_of_getElem? hj))).2 (.inr hpop)
    have hji := (List.pairwise_append.1 hconflicts.pairwise).2.2 j hfront i hback two one hj hi
      (conflicts_symm htouches)
    omega
  · rintro (hskipped | ⟨hsupported, hpops⟩) choices
    · exact ⟨_, if_pos hskipped, keepsConflicts_range block⟩
    · by_cases hskipped : Skipped block
      · exact ⟨_, if_pos hskipped, keepsConflicts_range block⟩
      · obtain ⟨order, horder, hschedules⟩ := (newOrder_iff hskipped hsupported).1 choices
        exact ⟨order, horder, keepsConflicts_of_schedules hsupported hpops hschedules⟩

local instance neZero_sixteen : NeZero 16 := ⟨by decide⟩

/-- `pop (%rax)`, `mov (%rbx), %rcx`: the `pop` can write what the `mov` reads. -/
def popBlock : List Instruction :=
  [⟨.pop, [.mem ⟨some (.physical 0), none⟩]⟩, ⟨.mov, [.mem ⟨some (.physical 3), none⟩, .reg (.physical 1)]⟩]

/-- `pop %rsp`, `mov %rax, %rbx`. -/
def popStackPointer : List Instruction :=
  [⟨.pop, [.reg (.physical 4)]⟩, ⟨.mov, [.reg (.physical 0), .reg (.physical 3)]⟩]

/-- The second block fails the assertion of `setRegWrite`. -/
theorem popBlock_reordered :
    ¬ (∀ choices, ∃ order, newOrder popBlock choices = some order ∧ KeepsConflicts popBlock order) ∧
    newOrder popStackPointer (fun _ => 0) = none := by
  refine ⟨fun hkeeps => ?_, by decide⟩
  obtain ⟨order, horder, hconflicts⟩ := hkeeps fun _ => 1
  have hreordered : newOrder popBlock (fun _ => 1) = some [1, 0] := by decide
  rw [hreordered] at horder
  cases horder
  have hconflict : (touches popBlock[1]).Conflicts (touches popBlock[0]) :=
    .inr (.inr ⟨.memory, .inr ⟨by decide, by decide⟩⟩)
  have hlt := List.rel_of_pairwise_cons hconflicts.pairwise (List.mem_singleton_self 0) _ _ rfl rfl hconflict
  exact absurd hlt (by decide)

end Egalito.Pass.ReorderPush
