import Egalito.Analysis.TreePattern
import Egalito.Analysis.SlicingTree
import Egalito.Lib.Explore
import Mathlib
/-!
# The pointers that ADRP instructions form

`PointerDetection::detectAtADRP` of `analysis/pointerdetection.cpp` and the search for
the offsets that are added to the page, a `PageOffsetList`. It follows a register
through moves and through stores that are loaded again.
-/

open Relation Egalito.Lib

namespace Egalito.Analysis.PointerDetection

/-! ## Tree forms -/

/-- `OffsetAdditionForm`: the base register with its width, and the constant. -/
def offsetAdditionForm : TreeNode → Option (Int × Nat × BitVec 64)
  | .binary .addition (.physicalRegister reg width) (.constant value) => some (reg, width, value)
  | _ => none

def pointerLoadForm : TreeNode → Option (Int × Nat × BitVec 64)
  | .unary (.dereference _) tree => offsetAdditionForm tree
  | _ => none

/-- `DerefForm`: the place that is read. -/
def derefForm : TreeNode → Option TreeNode
  | .unary (.dereference _) place => some place
  | _ => none

structure MemLocation where
  reg : Option TreeNode
  offset : BitVec 64

namespace MemLocation

def memoryForm : TreePattern :=
  .recursiveBinary .addition (.capture (.terminal .physicalRegister)) (.capture (.terminal .constant))

/-- One turn of the loop over the captures. -/
def take (location : MemLocation) : TreeNode → MemLocation
  | .constant value => { location with offset := location.offset + value }
  | .physicalRegister reg width => { location with reg := some (.physicalRegister reg width) }
  | _ => location

def extract (tree : TreeNode) : MemLocation :=
  match memoryForm.matches tree [] with
  | (true, cap) => cap.foldl take ⟨none, 0⟩
  | (false, _) => ⟨some tree, 0⟩

/-- `operator==`. -/
def same (location other : MemLocation) : Bool :=
  match location.reg, other.reg with
  | some reg, some reg' => reg.equal reg' && location.offset == other.offset
  | _, _ => false

end MemLocation

/-! ## The graph -/

/-- The sums of a register and a constant that an instruction computes or accesses memory at. -/
def sums (regDefs memDefs : DefList) : List (Int × Nat × BitVec 64) :=
  regDefs.filterMap (·.2.bind offsetAdditionForm) ++ regDefs.filterMap (·.2.bind pointerLoadForm) ++
    memDefs.filterMap (·.2.bind offsetAdditionForm)

/-- What the search reads of the `UDState`s. An AArch64 instruction that forms such sums has one base register, and a
register move stores nothing. -/
structure Aarch64UseDef (State : Type) extends UseDefGraph State where
  getMemDefList : State → DefList
  getMemUse : State → Int → List State
  oneBase : ∀ s, ∀ x ∈ sums (getRegDefList s) (getMemDefList s), ∀ y ∈ sums (getRegDefList s) (getMemDefList s), x.1 = y.1
  moveOnly : ∀ s, (∃ d ∈ getRegDefList s, (d.2.bind TreeNode.physicalRegister?).isSome) → getMemDefList s = []

/-- `PageOffsetList`; a map as a function. -/
@[ext] structure PageOffsetList (State : Type) where
  list : State → Option (BitVec 64)
  seen : State → List Int

/-- What may be thrown. -/
def inconsistentOffset : String := "inconsistent offset value"

/-- The order of the states in a map, which is that of their addresses. -/
structure AddressOrder (State : Type) where
  states : List State
  nodup : states.Nodup
  complete : ∀ s, s ∈ states

/-- The instructions with the pointers that they form; a state stands for its instruction. -/
abbrev PointerList (State : Type) := List (State × BitVec 64)

variable {State : Type}

namespace PageOffsetList

def empty : PageOffsetList State := ⟨fun _ => none, fun _ => []⟩

variable [DecidableEq State]

def addToList (state : State) (offset : BitVec 64) (offsets : PageOffsetList State) : PageOffsetList State :=
  { offsets with list := Function.update offsets.list state (some offset) }

/-- `seen[state].push_back(reg)`. -/
def see (state : State) (reg : Int) (offsets : PageOffsetList State) : PageOffsetList State :=
  { offsets with seen := Function.update offsets.seen state (offsets.seen state ++ [reg]) }

/-- `getList()`. -/
def getList (order : AddressOrder State) (offsets : PageOffsetList State) : List (State × BitVec 64) :=
  order.states.filterMap fun s => (offsets.list s).map fun offset => (s, offset)

end PageOffsetList

namespace Aarch64UseDef

/-- `none` is a recursion deeper than the fuel. -/
abbrev Detection (State : Type) := StateT (PageOffsetList State) Option

variable (graph : Aarch64UseDef State)

/-- `getMemDef(reg)`. -/
def getMemDef (state : State) (reg : Int) : Option TreeNode := ((graph.getMemDefList state).lookup reg).join

/-! ## The search -/

/-- The constant of the first tree of the form with the register. -/
def firstOffset (form : TreeNode → Option (Int × Nat × BitVec 64)) (isBase : Int → Nat → Bool) (list : DefList) :
    Option (BitVec 64) :=
  list.findSome? fun d => (d.2.bind form).bind fun (base, width, offset) => if isBase base width then some offset else none

def additionOffset (state : State) (reg : Int) : Option (BitVec 64) :=
  firstOffset offsetAdditionForm (fun base width => base == reg && width == 8) (graph.getRegDefList state)

def loadOffset (state : State) (reg : Int) : Option (BitVec 64) :=
  firstOffset pointerLoadForm (fun base _ => base == reg) (graph.getRegDefList state)

def storeOffset (state : State) (reg : Int) : Option (BitVec 64) :=
  firstOffset offsetAdditionForm (fun base _ => base == reg) (graph.getMemDefList state)

/-- The register that the first move of the register is to. -/
def copyTo (state : State) (reg : Int) : Option Int :=
  (graph.getRegDefList state).findSome? fun d => if d.2.bind TreeNode.physicalRegister? = some reg then some d.1 else none

/-- The register that is loaded from the place. -/
def loadFrom (place : TreeNode) (loadState : State) : Option Int :=
  (graph.getRegDefList loadState).findSome? fun d => (d.2.bind derefForm).bind fun tree =>
    if (MemLocation.extract place).same (MemLocation.extract tree) then some d.1 else none

variable [DecidableEq State]

def addFound (state : State) : Option (BitVec 64) → Detection State Bool
  | some offset => do
    modify (·.addToList state offset)
    return true
  | none => return false

def findInAdd (state : State) (reg : Int) : Detection State Bool := addFound state (graph.additionOffset state reg)

def findInLoad (state : State) (reg : Int) : Detection State Bool := addFound state (graph.loadOffset state reg)

def findInStore (state : State) (reg : Int) : Detection State Bool := addFound state (graph.storeOffset state reg)

section

-- the recursive calls
variable (detectOffset : State → Int → Detection State Bool)

def detectOffsetAfterCopy (state : State) (reg : Int) : Detection State Bool :=
  match graph.copyTo state reg with
  | some regDst => detectOffset state regDst
  | none => return false

def detectOffsetAfterPush (state : State) (reg : Int) : Detection State Bool :=
  match graph.getMemDef state reg with
  | some memTree => (graph.getMemUse state reg).foldlM (fun found loadState =>
      match graph.loadFrom memTree loadState with
      | some regDst => detectOffset loadState regDst
      | none => return found) false
  | none => return false

/-- The body of the loop over the uses. -/
def detectAtUse (reg : Int) (gFound : Bool) (s : State) : Detection State Bool := do
  if ← graph.findInAdd s reg then return true
  if ← graph.findInLoad s reg then return true
  if ← graph.findInStore s reg then return true
  if ← graph.detectOffsetAfterCopy detectOffset s reg then return true
  if ← graph.detectOffsetAfterPush detectOffset s reg then return true
  return gFound

end

def detectOffset : Nat → State → Int → Detection State Bool
  | 0, _, _ => failure
  | fuel + 1, state, reg => do
    if reg ∈ (← get).seen state then return false
    modify (·.see state reg)
    (graph.getRegUse state reg).foldlM (graph.detectAtUse (detectOffset fuel) reg) false

/-! ## The comparison -/

/-- One turn of the loop over the list; the offset is zero until one is taken. -/
def compareOffset (page : BitVec 64) (s : BitVec 64 × PointerList State) (o : State × BitVec 64) :
    Except String (BitVec 64 × PointerList State) :=
  let pointerList := s.2 ++ [(o.1, page + o.2)]
  if s.1 = 0 then .ok (o.2, pointerList)
  else if s.1 ≠ o.2 then .error inconsistentOffset
  else .ok (s.1, pointerList)

def recordPointers (page : BitVec 64) (state : State) (list : List (State × BitVec 64)) (pointerList : PointerList State) :
    Except String (PointerList State) := do
  let (offset, pointerList) ← list.foldlM (compareOffset page) (0, pointerList)
  return if 0 < list.length then pointerList ++ [(state, page + offset)] else pointerList

def detectAtADRP (order : AddressOrder State) (fuel : Nat) (state : State) (pointerList : PointerList State) :
    Option (Except String (PointerList State)) :=
  match graph.getRegDefList state with
  | (reg, some (.address page)) :: _ => do
    let (_, offsets) ← (graph.detectOffset fuel state reg).run .empty
    return recordPointers page state (offsets.getList order) pointerList
  | _ => some (.ok pointerList)

/-! ## What a use leads to -/

variable {graph} {s : State} {reg : Int}

variable (graph) in
/-- The offset that a use of the register adds to it. -/
def useOffset (s : State) (reg : Int) : Option (BitVec 64) :=
  (graph.additionOffset s reg).or ((graph.loadOffset s reg).or (graph.storeOffset s reg))

variable (graph) in
/-- The states that load the register again from where it is stored, with the register loaded to. -/
def reloads (s : State) (reg : Int) : List (State × Int) :=
  match graph.getMemDef s reg with
  | some memTree => (graph.getMemUse s reg).filterMap fun loadState => (graph.loadFrom memTree loadState).map (loadState, ·)
  | none => []

variable (graph) in
/-- An offset, or the registers that hold the value from there on. -/
def useTasks (reg : Int) (s : State) : List (Task (State × BitVec 64) (State × Int)) :=
  match graph.useOffset s reg, graph.copyTo s reg with
  | some offset, _ => [.note (s, offset)]
  | none, some regDst => [.enter (s, regDst)]
  | none, none => (graph.reloads s reg).map .enter

variable (graph) in
def tasks (k : State × Int) : List (Task (State × BitVec 64) (State × Int)) :=
  (graph.getRegUse k.1 k.2).flatMap (graph.useTasks k.2)

/-- The list that the notes make; the last of a state stays. -/
def listOf (notes : List (State × BitVec 64)) : State → Option (BitVec 64) :=
  notes.foldl (fun list n => Function.update list n.1 (some n.2)) fun _ => none

/-- The search has written down the notes and seen the pairs. -/
structure Explored (offsets : PageOffsetList State) (e : Exploration (State × BitVec 64) (State × Int)) : Prop where
  list : offsets.list = listOf e.notes
  seen : ∀ s reg, reg ∈ offsets.seen s ↔ (s, reg) ∈ e.seen

theorem Explored.addToList {offsets : PageOffsetList State} {e : Exploration (State × BitVec 64) (State × Int)}
    (h : Explored offsets e) (s : State) (offset : BitVec 64) :
    Explored (offsets.addToList s offset) { e with notes := e.notes ++ [(s, offset)] } := by
  refine ⟨?_, h.seen⟩
  rw [PageOffsetList.addToList, listOf, List.foldl_append, ← listOf, ← h.list]
  rfl

theorem Explored.see {offsets : PageOffsetList State} {e : Exploration (State × BitVec 64) (State × Int)}
    (h : Explored offsets e) (s : State) (reg : Int) :
    Explored (offsets.see s reg) { e with seen := (s, reg) :: e.seen } := by
  refine ⟨h.list, fun s' reg' => ?_⟩
  rw [PageOffsetList.see, List.mem_cons, ← h.seen, Prod.mk.injEq]
  by_cases hs : s' = s
  · subst hs
    simp [or_comm]
  · simp [hs]

/-- A part of the search does the tasks, when `explored` does what the recursive calls do. -/
def Does (explored : State × Int → Exploration (State × BitVec 64) (State × Int) →
    Option (Exploration (State × BitVec 64) (State × Int))) (run : Detection State Bool)
    (l : List (Task (State × BitVec 64) (State × Int))) : Prop :=
  ∀ offsets e e', Explored offsets e → l.foldlM (Task.run explored) e = some e' →
    ∃ found offsets', run offsets = some (found, offsets') ∧ Explored offsets' e'

variable {explored : State × Int → Exploration (State × BitVec 64) (State × Int) →
  Option (Exploration (State × BitVec 64) (State × Int))}

theorem does_pure (found : Bool) : Does explored (pure found : Detection State Bool) [] := fun offsets e e' he hrun => by
  cases hrun
  exact ⟨found, offsets, rfl, he⟩

theorem does_foldlM {β : Type} {l : List β} {f : Bool → β → Detection State Bool}
    {g : β → List (Task (State × BitVec 64) (State × Int))}
    (hf : ∀ found, ∀ x ∈ l, Does explored (f found x) (g x)) (found : Bool) :
    Does explored (l.foldlM f found) (l.flatMap g) := by
  induction l generalizing found with
  | nil => exact does_pure found
  | cons x l ih =>
    intro offsets e e' he hrun
    rw [List.flatMap_cons, List.foldlM_append, Option.bind_eq_bind, Option.bind_eq_some_iff] at hrun
    obtain ⟨e₁, hx, hrest⟩ := hrun
    obtain ⟨found₁, offsets₁, hrun₁, he₁⟩ := hf found x List.mem_cons_self offsets e e₁ he hx
    obtain ⟨found₂, offsets₂, hrun₂, he₂⟩ :=
      ih (fun found y hy => hf found y (List.mem_cons_of_mem x hy)) found₁ offsets₁ e₁ e' he₁ hrest
    refine ⟨found₂, offsets₂, ?_, he₂⟩
    rw [List.foldlM_cons]
    change (f found x offsets).bind (fun r => List.foldlM f r.1 l r.2) = _
    rw [hrun₁]
    exact hrun₂

/-- The search goes on, whatever it has found, with what has nothing to do. -/
theorem Does.orElse {first rest : Detection State Bool} {l : List (Task (State × BitVec 64) (State × Int))}
    (h : Does explored first l) (hrest : Does explored rest []) :
    Does explored (do if ← first then return true else rest) l := by
  intro offsets e e' he hrun
  obtain ⟨found, offsets', hfirst, he'⟩ := h offsets e e' he hrun
  cases found with
  | true => exact ⟨true, offsets', by simp [bind, StateT.bind, hfirst, pure, StateT.pure], he'⟩
  | false =>
    obtain ⟨found, offsets'', hrun', he''⟩ := hrest offsets' e' e' he' rfl
    exact ⟨found, offsets'', by simp [bind, StateT.bind, hfirst, hrun'], he''⟩

theorem does_copy {detectOffset : State → Int → Detection State Bool}
    (hrec : ∀ s reg, Does explored (detectOffset s reg) [.enter (s, reg)]) {regDst : Int} (h : graph.copyTo s reg = some regDst) :
    Does explored (graph.detectOffsetAfterCopy detectOffset s reg) [.enter (s, regDst)] := by
  rw [detectOffsetAfterCopy, h]
  exact hrec s regDst

variable (graph s reg) in
theorem does_push {detectOffset : State → Int → Detection State Bool}
    (hrec : ∀ s reg, Does explored (detectOffset s reg) [.enter (s, reg)]) :
    Does explored (graph.detectOffsetAfterPush detectOffset s reg) ((graph.reloads s reg).map .enter) := by
  rw [detectOffsetAfterPush, reloads]
  cases graph.getMemDef s reg with
  | none => exact does_pure false
  | some memTree =>
    have hflat : ∀ l : List State, (l.filterMap fun loadState => (graph.loadFrom memTree loadState).map (loadState, ·)).map
        (Task.enter : State × Int → Task (State × BitVec 64) (State × Int)) =
        l.flatMap fun loadState => ((graph.loadFrom memTree loadState).map fun regDst => .enter (loadState, regDst)).toList := by
      intro l
      induction l with
      | nil => rfl
      | cons loadState l ih =>
        rw [List.filterMap_cons, List.flatMap_cons, ← ih]
        cases graph.loadFrom memTree loadState <;> rfl
    dsimp only
    rw [hflat]
    refine does_foldlM (fun found loadState _ => ?_) false
    cases graph.loadFrom memTree loadState with
    | none => exact does_pure found
    | some regDst => exact hrec loadState regDst

omit [DecidableEq State] in
/-- A register move leaves nothing to be loaded again. -/
theorem reloads_of_copyTo {regDst : Int} (h : graph.copyTo s reg = some regDst) : graph.reloads s reg = [] := by
  obtain ⟨d, hd, hcopy⟩ := List.exists_of_findSome?_eq_some h
  have hmove : (d.2.bind TreeNode.physicalRegister?).isSome := by
    split_ifs at hcopy with hreg
    rw [hreg]
    rfl
  rw [reloads, getMemDef, graph.moveOnly s ⟨d, hd, hmove⟩]
  rfl

theorem does_use {detectOffset : State → Int → Detection State Bool}
    (hrec : ∀ s reg, Does explored (detectOffset s reg) [.enter (s, reg)]) (gFound : Bool) :
    Does explored (graph.detectAtUse detectOffset reg gFound s) (graph.useTasks reg s) := by
  have hadded : ∀ offset offsets e e', Explored offsets e →
      [Task.note (s, offset)].foldlM (Task.run explored) e = some e' → Explored (offsets.addToList s offset) e' := by
    intro offset offsets e e' he hrun
    cases hrun
    exact he.addToList s offset
  unfold detectAtUse findInAdd findInLoad findInStore useTasks useOffset
  cases graph.additionOffset s reg with
  | some offset => exact fun offsets e e' he hrun => ⟨true, _, rfl, hadded offset offsets e e' he hrun⟩
  | none =>
    cases graph.loadOffset s reg with
    | some offset => exact fun offsets e e' he hrun => ⟨true, _, rfl, hadded offset offsets e e' he hrun⟩
    | none =>
      cases graph.storeOffset s reg with
      | some offset => exact fun offsets e e' he hrun => ⟨true, _, rfl, hadded offset offsets e e' he hrun⟩
      | none =>
        have hpush := (does_push graph s reg hrec).orElse (does_pure gFound)
        cases hcopy : graph.copyTo s reg with
        | some regDst =>
          rw [reloads_of_copyTo hcopy] at hpush
          exact (does_copy hrec hcopy).orElse hpush
        | none =>
          simp only [detectOffsetAfterCopy, hcopy]
          exact hpush

theorem detectOffset_succ (fuel : Nat) (s : State) (reg : Int) (offsets : PageOffsetList State) :
    graph.detectOffset (fuel + 1) s reg offsets = if reg ∈ offsets.seen s then some (false, offsets)
      else (graph.getRegUse s reg).foldlM (graph.detectAtUse (graph.detectOffset fuel) reg) false (offsets.see s reg) := by
  by_cases h : reg ∈ offsets.seen s <;>
    simp [detectOffset, bind, StateT.bind, get, getThe, MonadStateOf.get, StateT.get, modify, modifyGet, MonadStateOf.modifyGet,
      StateT.modifyGet, pure, StateT.pure, h]

/-- The search is the exploration of its tasks. -/
theorem does_detectOffset (fuel : Nat) (s : State) (reg : Int) :
    Does (explore graph.tasks fuel) (graph.detectOffset fuel s reg) [.enter (s, reg)] := by
  induction fuel generalizing s reg with
  | zero =>
    intro offsets e e' he hrun
    cases hrun
  | succ fuel ih =>
    intro offsets e e' he hrun
    have hexplore : explore graph.tasks (fuel + 1) (s, reg) e = some e' := by simpa [Task.run] using hrun
    rw [explore] at hexplore
    rw [detectOffset_succ]
    split_ifs at hexplore with hseen
    · cases hexplore
      exact ⟨false, offsets, if_pos ((he.seen s reg).2 hseen), he⟩
    · rw [if_neg fun h => hseen ((he.seen s reg).1 h)]
      have hdoes : Does (explore graph.tasks fuel)
          ((graph.getRegUse s reg).foldlM (graph.detectAtUse (graph.detectOffset fuel) reg) false) (graph.tasks (s, reg)) :=
        does_foldlM (g := graph.useTasks reg) (fun found s' _ => does_use ih found) false
      exact hdoes _ _ e' (he.see s reg) hexplore

/-! ## What the search collects -/

theorem mem_of_firstOffset {form : TreeNode → Option (Int × Nat × BitVec 64)} {isBase : Int → Nat → Bool} {list : DefList}
    {offset : BitVec 64} (h : firstOffset form isBase list = some offset) :
    ∃ base width, isBase base width = true ∧ (base, width, offset) ∈ list.filterMap (·.2.bind form) := by
  obtain ⟨d, hd, h⟩ := List.exists_of_findSome?_eq_some h
  obtain ⟨⟨base, width, offset'⟩, hform, h⟩ := Option.bind_eq_some_iff.1 h
  dsimp only at h
  split_ifs at h with hbase
  cases h
  exact ⟨base, width, hbase, List.mem_filterMap.2 ⟨d, hd, hform⟩⟩

omit [DecidableEq State] in
/-- The register is the base of the sum. -/
theorem mem_sums_of_useOffset {offset : BitVec 64} (h : graph.useOffset s reg = some offset) :
    ∃ width, (reg, width, offset) ∈ sums (graph.getRegDefList s) (graph.getMemDefList s) := by
  rw [useOffset, Option.or_eq_some_iff, Option.or_eq_some_iff] at h
  rw [sums]
  rcases h with h | ⟨-, h | ⟨-, h⟩⟩
  all_goals
    obtain ⟨base, width, hbase, hmem⟩ := mem_of_firstOffset h
    simp only [Bool.and_eq_true, beq_iff_eq] at hbase
  · exact ⟨width, List.mem_append_left _ (List.mem_append_left _ (hbase.1 ▸ hmem))⟩
  · exact ⟨width, List.mem_append_left _ (List.mem_append_right _ (hbase ▸ hmem))⟩
  · exact ⟨width, List.mem_append_right _ (hbase ▸ hmem)⟩

omit [DecidableEq State] in
theorem note_mem_tasks {k : State × Int} {offset : BitVec 64} (h : .note (s, offset) ∈ graph.tasks k) :
    graph.useOffset s k.2 = some offset := by
  obtain ⟨s', -, h⟩ := List.mem_flatMap.1 h
  rw [useTasks] at h
  split at h
  · rename_i offset' hoffset
    cases List.mem_singleton.1 h
    exact hoffset
  · simp at h
  · simp at h

omit [DecidableEq State] in
/-- Only registers that some state defines are looked for. -/
theorem defines_of_descends {k k' : State × Int} (h : Descends graph.tasks k k') :
    k'.2 ∈ (graph.getRegDefList k'.1).map Prod.fst := by
  obtain ⟨s, -, h⟩ := List.mem_flatMap.1 h
  rw [useTasks] at h
  split at h
  · simp at h
  · rename_i regDst _ hcopy
    cases List.mem_singleton.1 h
    obtain ⟨d, hd, hcopy⟩ := List.exists_of_findSome?_eq_some hcopy
    split_ifs at hcopy
    cases hcopy
    exact List.mem_map_of_mem hd
  · obtain ⟨k'', h, hk⟩ := List.mem_map.1 h
    cases hk
    rw [reloads] at h
    split at h
    · obtain ⟨loadState, -, h⟩ := List.mem_filterMap.1 h
      obtain ⟨regDst, hload, rfl⟩ := Option.map_eq_some_iff.1 h
      obtain ⟨d, hd, hload⟩ := List.exists_of_findSome?_eq_some hload
      obtain ⟨tree, -, hload⟩ := Option.bind_eq_some_iff.1 hload
      split_ifs at hload
      cases hload
      exact List.mem_map_of_mem hd
    · exact absurd h List.not_mem_nil

variable (graph) in
/-- The offset that is added to the register at a use of it, or of a register that it is handed on to. -/
def OffsetOfUse (state : State) (reg : Int) (s : State) (offset : BitVec 64) : Prop :=
  ∃ k, ReflTransGen (Descends graph.tasks) (state, reg) k ∧ .note (s, offset) ∈ graph.tasks k

omit [DecidableEq State] in
theorem OffsetOfUse.unique {state : State} {offset offset' : BitVec 64} (h : graph.OffsetOfUse state reg s offset)
    (h' : graph.OffsetOfUse state reg s offset') : offset = offset' := by
  obtain ⟨k, -, h⟩ := h
  obtain ⟨k', -, h'⟩ := h'
  have h := note_mem_tasks h
  have h' := note_mem_tasks h'
  obtain ⟨width, hmem⟩ := mem_sums_of_useOffset h
  obtain ⟨width', hmem'⟩ := mem_sums_of_useOffset h'
  have hreg : k.2 = k'.2 := graph.oneBase s _ hmem _ hmem'
  rw [hreg, h'] at h
  exact (Option.some.inj h).symm

theorem listOf_eq_some {notes : List (State × BitVec 64)} (h : ∀ n ∈ notes, ∀ n' ∈ notes, n.1 = n'.1 → n.2 = n'.2)
    {offset : BitVec 64} : listOf notes s = some offset ↔ (s, offset) ∈ notes := by
  induction notes using List.reverseRecOn with
  | nil => simp [listOf]
  | append_singleton notes n ih =>
    have ih := ih fun n hn n' hn' => h n (List.mem_append_left _ hn) n' (List.mem_append_left _ hn')
    have hlast : n ∈ notes ++ [n] := List.mem_append_right _ (List.mem_singleton_self n)
    rw [listOf, List.foldl_append, ← listOf, List.foldl_cons, List.foldl_nil, List.mem_append, List.mem_singleton, ← ih]
    by_cases hs : s = n.1
    · subst hs
      rw [Function.update_self, Option.some.injEq]
      constructor
      · rintro rfl
        exact .inr rfl
      · rintro (hlist | hn)
        · exact (h _ (List.mem_append_left _ (ih.1 hlist)) n hlast rfl).symm
        · rw [← hn]
    · rw [Function.update_of_ne hs]
      exact (or_iff_left fun hn => hs (congrArg Prod.fst hn)).symm

theorem detectOffset_spec [Fintype State] (state : State) (reg : Int) :
    ∃ depth, ∀ fuel ≥ depth, ∃ found offsets, graph.detectOffset fuel state reg .empty = some (found, offsets) ∧
      ∀ s offset, offsets.list s = some offset ↔ graph.OffsetOfUse state reg s offset := by
  let regs : Finset Int :=
    insert reg (Finset.univ.biUnion fun s => ((graph.getRegDefList s).map Prod.fst).toFinset)
  have hclosed : ∀ k ∈ (Finset.univ : Finset State) ×ˢ regs, ∀ k', Descends graph.tasks k k' →
      k' ∈ (Finset.univ : Finset State) ×ˢ regs := fun k _ k' hk' =>
    Finset.mem_product.2 ⟨Finset.mem_univ _, Finset.mem_insert_of_mem
      (Finset.mem_biUnion.2 ⟨k'.1, Finset.mem_univ _, List.mem_toFinset.2 (defines_of_descends hk')⟩)⟩
  refine ⟨(unmarked ((Finset.univ : Finset State) ×ˢ regs)
    (⟨[], []⟩ : Exploration (State × BitVec 64) (State × Int))).card + 1, fun fuel hfuel => ?_⟩
  have hstart : (state, reg) ∈ (Finset.univ : Finset State) ×ˢ regs :=
    Finset.mem_product.2 ⟨Finset.mem_univ _, Finset.mem_insert_self reg _⟩
  obtain ⟨e, he⟩ := explore_total hclosed hstart hfuel
  obtain ⟨found, offsets, hrun, hexplored⟩ := does_detectOffset fuel state reg .empty ⟨[], []⟩ e
    ⟨rfl, by simp [PageOffsetList.empty]⟩ (by simpa [Task.run] using he)
  refine ⟨found, offsets, hrun, fun s offset => ?_⟩
  rw [hexplored.list, listOf_eq_some]
  · exact mem_notes_explore he
  · intro n hn n' hn' hs
    have hn : graph.OffsetOfUse state reg n.1 n.2 := (mem_notes_explore he).1 hn
    have hn' : graph.OffsetOfUse state reg n'.1 n'.2 := (mem_notes_explore he).1 hn'
    rw [← hs] at hn'
    exact hn.unique hn'

/-! ## What the comparison lets pass -/

section Comparison

variable {page : BitVec 64} {l : List (State × BitVec 64)} {s r : BitVec 64 × PointerList State} {offset : BitVec 64}

omit [DecidableEq State]

theorem compareOffset_cases (s : BitVec 64 × PointerList State) (o : State × BitVec 64) :
    s.1 = 0 ∧ compareOffset page s o = .ok (o.2, s.2 ++ [(o.1, page + o.2)]) ∨
    s.1 ≠ 0 ∧ s.1 = o.2 ∧ compareOffset page s o = .ok (s.1, s.2 ++ [(o.1, page + o.2)]) ∨
    s.1 ≠ 0 ∧ s.1 ≠ o.2 ∧ compareOffset page s o = .error inconsistentOffset := by
  rw [compareOffset]
  by_cases hzero : s.1 = 0
  · exact .inl ⟨hzero, if_pos hzero⟩
  · by_cases hsame : s.1 = o.2
    · refine .inr (.inl ⟨hzero, hsame, ?_⟩)
      rw [if_neg hzero, if_neg (not_not_intro hsame)]
    · refine .inr (.inr ⟨hzero, hsame, ?_⟩)
      rw [if_neg hzero, if_pos hsame]

theorem ok_or_error (s : BitVec 64 × PointerList State) (l : List (State × BitVec 64)) :
    (∃ r, l.foldlM (compareOffset page) s = .ok r) ∨ l.foldlM (compareOffset page) s = .error inconsistentOffset := by
  induction l generalizing s with
  | nil => exact .inl ⟨s, rfl⟩
  | cons o l ih =>
    rw [List.foldlM_cons]
    rcases compareOffset_cases s o with ⟨-, h⟩ | ⟨-, -, h⟩ | ⟨-, -, h⟩
    · rw [h]
      exact ih _
    · rw [h]
      exact ih _
    · rw [h]
      exact .inr rfl

/-- Zeros pass until an offset is taken, and then nothing but the offset does. -/
theorem same_of_ok (h : l.foldlM (compareOffset page) s = .ok r) :
    (∀ o ∈ l, o.2 ≠ 0 → o.2 = r.1) ∧ (s.1 ≠ 0 → r.1 = s.1) := by
  induction l generalizing s with
  | nil =>
    cases h
    exact ⟨by simp, fun _ => rfl⟩
  | cons o l ih =>
    rw [List.foldlM_cons] at h
    rcases compareOffset_cases s o with ⟨hzero, hstep⟩ | ⟨hne, hsame, hstep⟩ | ⟨-, -, hstep⟩
    · rw [hstep] at h
      obtain ⟨hrest, htaken⟩ := ih h
      exact ⟨List.forall_mem_cons.2 ⟨fun ho => (htaken ho).symm, hrest⟩, fun hs => absurd hzero hs⟩
    · rw [hstep] at h
      obtain ⟨hrest, htaken⟩ := ih h
      exact ⟨List.forall_mem_cons.2 ⟨fun _ => hsame ▸ (htaken hne).symm, hrest⟩, htaken⟩
    · rw [hstep] at h
      cases h

variable (page offset) in
theorem ok_of_same (hl : ∀ o ∈ l, o.2 = offset) (hs : s.1 = 0 ∨ s.1 = offset) :
    ∃ pointerList, l.foldlM (compareOffset page) s = .ok (if l = [] then s.1 else offset, pointerList) := by
  induction l generalizing s with
  | nil => exact ⟨s.2, rfl⟩
  | cons o l ih =>
    rw [List.forall_mem_cons] at hl
    rw [List.foldlM_cons, if_neg (List.cons_ne_nil o l)]
    rcases compareOffset_cases s o with ⟨-, hstep⟩ | ⟨-, hsame, hstep⟩ | ⟨hne, hother, -⟩
    · rw [hstep]
      obtain ⟨pointerList, hrest⟩ := @ih (o.2, s.2 ++ [(o.1, page + o.2)]) hl.2 (.inr hl.1)
      refine ⟨pointerList, hrest.trans ?_⟩
      dsimp only
      rw [hl.1, ite_self]
    · rw [hstep]
      obtain ⟨pointerList, hrest⟩ := @ih (s.1, s.2 ++ [(o.1, page + o.2)]) hl.2 (.inr (hsame.trans hl.1))
      refine ⟨pointerList, hrest.trans ?_⟩
      dsimp only
      rw [hsame, hl.1, ite_self]
    · exact absurd (hs.resolve_left hne) (hl.1 ▸ hother)

end Comparison

/-! ## The detection -/

variable (graph) in
/-- A state of an ADRP instruction. -/
structure AdrpState where
  state : State
  reg : Int
  page : BitVec 64
  defines : graph.getRegDefList state = [(reg, some (.address page))]

namespace AdrpState

variable (adrp : graph.AdrpState)

/-- An offset that the search collects. -/
def Collects (s : State) (offset : BitVec 64) : Prop := graph.OffsetOfUse adrp.state adrp.reg s offset

def Differ : Prop := ∃ s offset s' offset', adrp.Collects s offset ∧ adrp.Collects s' offset' ∧ offset ≠ offset'

/-- In every order of the states: an error exactly when two offsets differ, and otherwise the pointer for the ADRP,
which comes last, with the offset of all its uses. -/
def Detects : Prop :=
  ∀ (order : AddressOrder State) (pointerList : PointerList State), ∃ depth, ∀ fuel ≥ depth, ∃ outcome,
    graph.detectAtADRP order fuel adrp.state pointerList = some outcome ∧
      (outcome = .error inconsistentOffset ↔ adrp.Differ) ∧
      ∀ pointerList', outcome = .ok pointerList' → ∀ s offset, adrp.Collects s offset →
        pointerList'.getLast? = some (adrp.state, adrp.page + offset)

/-- Zero is among the offsets, and the others are all the same. -/
def ZeroAndOneOther : Prop :=
  (∃ s, adrp.Collects s 0) ∧ (∃ s offset, adrp.Collects s offset ∧ offset ≠ 0) ∧
    ∀ s offset s' offset', adrp.Collects s offset → adrp.Collects s' offset' → offset ≠ 0 → offset' ≠ 0 → offset = offset'

variable {adrp}

/-- The outcome is that of the comparison of what is collected. -/
theorem detectAtADRP_eq [Fintype State] (adrp : graph.AdrpState) :
    ∃ depth, ∀ fuel ≥ depth, ∃ offsets : PageOffsetList State,
      (∀ s offset, offsets.list s = some offset ↔ adrp.Collects s offset) ∧
      ∀ order pointerList, graph.detectAtADRP order fuel adrp.state pointerList =
        some (recordPointers adrp.page adrp.state (offsets.getList order) pointerList) := by
  obtain ⟨depth, hdepth⟩ := graph.detectOffset_spec adrp.state adrp.reg
  refine ⟨depth, fun fuel hfuel => ?_⟩
  obtain ⟨found, offsets, hrun, hlist⟩ := hdepth fuel hfuel
  refine ⟨offsets, hlist, fun order pointerList => ?_⟩
  rw [detectAtADRP, adrp.defines]
  dsimp only
  rw [StateT.run, hrun]
  rfl

omit [DecidableEq State] in
theorem mem_getList {offsets : PageOffsetList State} {order : AddressOrder State} {o : State × BitVec 64} :
    o ∈ offsets.getList order ↔ offsets.list o.1 = some o.2 := by
  rw [PageOffsetList.getList, List.mem_filterMap]
  constructor
  · rintro ⟨s, -, h⟩
    obtain ⟨offset, hlist, rfl⟩ := Option.map_eq_some_iff.1 h
    exact hlist
  · intro h
    exact ⟨o.1, order.complete o.1, by rw [h]; rfl⟩

omit [DecidableEq State] in
theorem recordPointers_of_error {page : BitVec 64} {s : State} {l : List (State × BitVec 64)} {pointerList : PointerList State}
    (h : l.foldlM (compareOffset page) (0, pointerList) = .error inconsistentOffset) :
    recordPointers page s l pointerList = .error inconsistentOffset := by
  rw [recordPointers, h]
  rfl

omit [DecidableEq State] in
theorem recordPointers_of_ok {page offset : BitVec 64} {s : State} {l : List (State × BitVec 64)}
    {pointerList pointerList' : PointerList State}
    (h : l.foldlM (compareOffset page) (0, pointerList) = .ok (offset, pointerList')) :
    recordPointers page s l pointerList =
      .ok (if 0 < l.length then pointerList' ++ [(s, page + offset)] else pointerList') := by
  rw [recordPointers, h]
  rfl

/-- Where all offsets that are not zero are the same, the comparison raises only when zero is among them. -/
theorem detects_of_not (adrp : graph.AdrpState) [Fintype State] (h : ¬ adrp.ZeroAndOneOther) : adrp.Detects := by
  obtain ⟨depth, hdepth⟩ := detectAtADRP_eq adrp
  refine fun order pointerList => ⟨depth, fun fuel hfuel => ?_⟩
  obtain ⟨offsets, hlist, hrun⟩ := hdepth fuel hfuel
  have hmem : ∀ {s offset}, (s, offset) ∈ offsets.getList order ↔ adrp.Collects s offset := fun {s offset} =>
    mem_getList.trans (hlist s offset)
  refine ⟨_, hrun order pointerList, ?_⟩
  by_cases hdiffer : adrp.Differ
  · have herror : (offsets.getList order).foldlM (compareOffset adrp.page) (0, pointerList) = .error inconsistentOffset := by
      refine (ok_or_error _ _).resolve_left fun ⟨r, hr⟩ => h ?_
      have hsame : ∀ s offset, adrp.Collects s offset → offset ≠ 0 → offset = r.1 := fun s offset ho =>
        (same_of_ok hr).1 (s, offset) (hmem.2 ho)
      obtain ⟨s, offset, s', offset', ho, ho', hne⟩ := hdiffer
      have hothers : ∀ s offset s' offset', adrp.Collects s offset → adrp.Collects s' offset' → offset ≠ 0 → offset' ≠ 0 →
          offset = offset' := fun s offset s' offset' ho ho' hne hne' => (hsame s offset ho hne).trans (hsame s' offset' ho' hne').symm
      by_cases hzero : offset = 0
      · exact ⟨⟨s, hzero ▸ ho⟩, ⟨s', offset', ho', fun hzero' => hne (hzero.trans hzero'.symm)⟩, hothers⟩
      · refine ⟨⟨s', ?_⟩, ⟨s, offset, ho, hzero⟩, hothers⟩
        by_cases hzero' : offset' = 0
        · exact hzero' ▸ ho'
        · exact absurd (hothers _ _ _ _ ho ho' hzero hzero') hne
    rw [recordPointers_of_error herror]
    exact ⟨iff_of_true rfl hdiffer, fun _ h => nomatch h⟩
  · have hsame : ∀ s offset, adrp.Collects s offset → ∀ o ∈ offsets.getList order, o.2 = offset := fun s offset ho o ho' =>
      not_not.1 fun hne => hdiffer ⟨o.1, o.2, s, offset, hmem.1 ho', ho, hne⟩
    cases hl : offsets.getList order with
    | nil =>
      rw [recordPointers_of_ok (show ([] : List (State × BitVec 64)).foldlM (compareOffset adrp.page) (0, pointerList) =
        .ok (0, pointerList) from rfl)]
      refine ⟨iff_of_false (fun h => nomatch h) hdiffer, fun _ _ s offset ho => ?_⟩
      rw [← hmem, hl] at ho
      exact absurd ho List.not_mem_nil
    | cons o l =>
      rw [← hl]
      have ho : adrp.Collects o.1 o.2 := hmem.1 (hl ▸ List.mem_cons_self)
      obtain ⟨pointerList', hok⟩ := ok_of_same adrp.page o.2 (s := (0, pointerList)) (hsame o.1 o.2 ho) (.inl rfl)
      rw [if_neg (by rw [hl]; exact List.cons_ne_nil o l)] at hok
      rw [recordPointers_of_ok hok, if_pos (by rw [hl]; exact Nat.succ_pos _)]
      refine ⟨iff_of_false (fun h => nomatch h) hdiffer, fun _ h s offset ho' => ?_⟩
      cases h
      rw [List.getLast?_concat, hsame s offset ho' o (hl ▸ List.mem_cons_self)]

omit [DecidableEq State] in
/-- An order with the states that have a property first. -/
theorem exists_order [Fintype State] (p : State → Prop) :
    ∃ (order : AddressOrder State) (front back : List State), order.states = front ++ back ∧
      (∀ s ∈ front, p s) ∧ ∀ s ∈ back, ¬ p s := by
  classical
  let states : List State := Finset.univ.toList
  have hperm : (states.filter (p ·) ++ states.filter (¬ p ·)).Perm states := by
    simpa using List.filter_append_perm (fun s => decide (p s)) states
  refine ⟨⟨_, hperm.nodup_iff.2 (Finset.nodup_toList _), fun s => hperm.mem_iff.2 (Finset.mem_toList.2 (Finset.mem_univ s))⟩,
    states.filter (p ·), states.filter (¬ p ·), rfl, fun s hs => ?_, fun s hs => ?_⟩
  · simpa using (List.mem_filter.1 hs).2
  · simpa using (List.mem_filter.1 hs).2

/-- `detectOffset` ends on every graph. The detection does what it should unless zero is among the offsets with one
other: with the zeros first it then raises no error. -/
theorem detects_iff [Fintype State] (adrp : graph.AdrpState) :
    (∃ depth, ∀ fuel ≥ depth, ∃ result, graph.detectOffset fuel adrp.state adrp.reg .empty = some result) ∧
      (adrp.Detects ↔ ¬ adrp.ZeroAndOneOther) := by
  constructor
  · obtain ⟨depth, hdepth⟩ := graph.detectOffset_spec adrp.state adrp.reg
    refine ⟨depth, fun fuel hfuel => ?_⟩
    obtain ⟨found, offsets, hrun, -⟩ := hdepth fuel hfuel
    exact ⟨_, hrun⟩
  · refine ⟨fun h hzero => ?_, adrp.detects_of_not⟩
    obtain ⟨⟨s₀, hs₀⟩, ⟨s₁, offset₁, hs₁, hne₁⟩, hothers⟩ := hzero
    obtain ⟨order, front, back, horder, hfront, hback⟩ := exists_order fun s => adrp.Collects s 0
    obtain ⟨depth, hdepth⟩ := detectAtADRP_eq adrp
    obtain ⟨depth', hdepth'⟩ := h order []
    obtain ⟨offsets, hlist, hrun⟩ := hdepth (max depth depth') (le_max_left _ _)
    obtain ⟨outcome, hrun', herror, -⟩ := hdepth' (max depth depth') (le_max_right _ _)
    rw [hrun] at hrun'
    obtain rfl := Option.some.inj hrun'
    have hraised := herror.2 ⟨s₀, 0, s₁, offset₁, hs₀, hs₁, hne₁.symm⟩
    have hcollects : ∀ {states : List State} {o : State × BitVec 64},
        o ∈ states.filterMap (fun s => (offsets.list s).map fun offset => (s, offset)) → o.1 ∈ states ∧ adrp.Collects o.1 o.2 := by
      intro states o ho
      obtain ⟨s, hs, ho⟩ := List.mem_filterMap.1 ho
      obtain ⟨offset, hoffset, rfl⟩ := Option.map_eq_some_iff.1 ho
      exact ⟨hs, (hlist s offset).1 hoffset⟩
    obtain ⟨pointerList, hzeros⟩ := ok_of_same adrp.page 0 (s := (0, []))
      (l := front.filterMap fun s => (offsets.list s).map fun offset => (s, offset))
      (fun o ho => (hcollects ho).2.unique (hfront o.1 (hcollects ho).1)) (.inl rfl)
    obtain ⟨pointerList', hrest⟩ := ok_of_same adrp.page offset₁ (s := (0, pointerList))
      (l := back.filterMap fun s => (offsets.list s).map fun offset => (s, offset))
      (fun o ho => by
        obtain ⟨hmem, ho⟩ := hcollects ho
        exact hothers _ _ _ _ ho hs₁ (fun hzero => hback o.1 hmem (hzero ▸ ho)) hne₁) (.inl rfl)
    have hok : ∃ r, (offsets.getList order).foldlM (compareOffset adrp.page) (0, []) = .ok r := by
      rw [PageOffsetList.getList, horder, List.filterMap_append, List.foldlM_append, hzeros, ite_self]
      exact ⟨_, hrest⟩
    obtain ⟨r, hr⟩ := hok
    rw [recordPointers_of_ok hr] at hraised
    cases hraised

/-! ## A page with two variables -/

local instance neZero_three : NeZero 3 := ⟨by decide⟩

/-- After `adrp x0, 0x1000`, `ldr x1, [x0]` and `ldr x2, [x0, #8]`. -/
def firstAndSecond : Aarch64UseDef (Fin 3) where
  getRegDefList
    | 0 => [(0, some (.address 0x1000))]
    | 1 => [(1, some (.unary (.dereference 8) (.binary .addition (.physicalRegister 0 8) (.constant 0))))]
    | 2 => [(2, some (.unary (.dereference 8) (.binary .addition (.physicalRegister 0 8) (.constant 8))))]
  getRegRef s reg := if s ≠ 0 ∧ reg = 0 then [0] else []
  getRegUse s reg := if s = 0 ∧ reg = 0 then [1, 2] else []
  getMemDefList _ := []
  getMemUse _ _ := []
  oneBase s := by
    fin_cases s
    all_goals
      rintro x hx y hy
      simp [sums, offsetAdditionForm, pointerLoadForm] at hx hy
      try rw [hx, hy]
  moveOnly _ _ := rfl

def firstPage : firstAndSecond.AdrpState := ⟨0, 0, 0x1000, rfl⟩

/-- The pointer to the first variable is not the pointer of the ADRP. -/
theorem not_detects_firstPage : ¬ firstPage.Detects := by
  intro h
  obtain ⟨depth, hdepth⟩ := h ⟨[0, 1, 2], by decide, by decide⟩ []
  obtain ⟨outcome, hrun, herror, -⟩ := hdepth (depth + 1) (Nat.le_succ depth)
  have hok : firstAndSecond.detectAtADRP ⟨[0, 1, 2], by decide, by decide⟩ (depth + 1) 0 [] =
      some (.ok [(1, 0x1000), (2, 0x1008), (0, 0x1008)]) := rfl
  rw [show firstPage.state = 0 from rfl, hok] at hrun
  obtain rfl := Option.some.inj hrun
  have hstart : ReflTransGen (Descends firstAndSecond.tasks) (firstPage.state, firstPage.reg) (0, 0) := .refl
  have hdiffer : firstPage.Differ :=
    ⟨1, 0, 2, 8, ⟨(0, 0), hstart, List.mem_cons_self⟩, ⟨(0, 0), hstart, List.mem_cons_of_mem _ List.mem_cons_self⟩, by decide⟩
  exact nomatch herror.2 hdiffer

end AdrpState

end Aarch64UseDef

end Egalito.Analysis.PointerDetection
