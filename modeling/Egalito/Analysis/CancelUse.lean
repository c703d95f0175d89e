import Egalito.Lib.Buffer
/-!
# Cancelling the use and definition of a register

`UseDef::cancelUseDefReg` of `analysis/usedef.cpp`, on the reference and use lists of
the states. A list holds a state once: all its operations see to that.
-/

open Egalito.Lib

namespace Egalito.Analysis.CancelUse

/-! ## A list of states -/

section StateList

variable {σ : Type} [DecidableEq σ]

/-- One turn of the loop of `UseList::del`, at a slot: `s = it->second.back(); it->second.pop_back();` -/
def delAt (state : σ) (b : Buffer σ) (i : Nat) : Buffer σ :=
  match b.slots[i]?, b.live.getLast? with
  | some s, some back =>
    if s = state then
      let slots := b.slots.set i back
      ⟨slots.take (b.live.length - 1), slots.drop (b.live.length - 1)⟩
    else b
  | _, _ => b

/-- The loop keeps the end it was started with, also when the vector gets shorter. -/
def delLoop (list : List σ) (state : σ) : List σ :=
  ((List.range list.length).foldl (delAt state) (.ofList list)).live

theorem delAt_of_ne {state : σ} {b : Buffer σ} {i : Nat} (h : b.slots[i]? ≠ some state) : delAt state b i = b := by
  rw [delAt]
  split
  · rename_i s back hs _
    rw [if_neg]
    rintro rfl
    exact h hs
  · rfl

theorem foldl_delAt_of_ne {state : σ} {b : Buffer σ} {l : List Nat} (h : ∀ i ∈ l, b.slots[i]? ≠ some state) :
    l.foldl (delAt state) b = b := by
  induction l with
  | nil => rfl
  | cons i l ih =>
    rw [List.forall_mem_cons] at h
    rw [List.foldl_cons, delAt_of_ne h.1, ih h.2]

/-- The turn at the state, with the states `back` behind it. -/
theorem delAt_middle (front back : List σ) (state : σ) :
    ∃ live rest, delAt state (.ofList (front ++ state :: back)) front.length = ⟨front ++ live, rest⟩ ∧
      live.Perm back ∧ ∀ i, front.length < i → ∀ s, (front ++ live ++ rest)[i]? = some s → s ∈ back := by
  have hslot : (front ++ state :: back)[front.length]? = some state := by simp
  rw [delAt, Buffer.slots, Buffer.ofList, List.append_nil, hslot]
  induction back using List.reverseRecOn with
  | nil =>
    refine ⟨[], [state], ?_, List.Perm.nil, fun i hi s hs => ?_⟩
    · simp
    · rw [List.getElem?_eq_none (by simp; omega)] at hs
      cases hs
  | append_singleton back last _ =>
    refine ⟨last :: back, [last], ?_, (List.perm_append_singleton last back).symm, fun i hi s hs => ?_⟩
    · rw [← List.cons_append, ← List.append_assoc, List.getLast?_concat]
      dsimp only
      rw [if_pos rfl, List.set_append_left _ _ (by simp), List.length_append, List.length_singleton,
        Nat.add_sub_cancel]
      have hset : (front ++ state :: back).set front.length last = front ++ last :: back := by simp
      have hlength : (front ++ state :: back).length = (front ++ last :: back).length := by simp
      rw [hset, hlength, List.take_left, List.drop_left]
    · rw [List.append_assoc, List.getElem?_append_right hi.le, List.cons_append,
        List.getElem?_cons, if_neg (by omega)] at hs
      exact List.mem_of_getElem? hs

/-- A state that is listed once is taken out, and the last one moves to its place. -/
theorem delLoop_perm {list : List σ} (hnodup : list.Nodup) (state : σ) : (delLoop list state).Perm (list.erase state) := by
  by_cases hmem : state ∈ list
  · obtain ⟨front, back, rfl⟩ := List.append_of_mem hmem
    have hfront : state ∉ front := fun h => (List.nodup_append.1 hnodup).2.2 state h state List.mem_cons_self rfl
    have hback : state ∉ back := (List.nodup_cons.1 (List.nodup_append.1 hnodup).2.1).1
    obtain ⟨live, rest, hat, hlive, hbehind⟩ := delAt_middle front back state
    have hrange : List.range (front ++ state :: back).length =
        List.range front.length ++ front.length :: List.range' (front.length + 1) back.length := by
      rw [List.length_append, List.length_cons, List.range_eq_range', List.range_eq_range', ← List.range'_succ,
        ← List.range'_append_1, Nat.zero_add]
    rw [List.erase_append_right _ hfront, List.erase_cons_head, delLoop, hrange, List.foldl_append, List.foldl_cons,
      foldl_delAt_of_ne (l := List.range front.length), hat, foldl_delAt_of_ne]
    · exact hlive.append_left front
    · intro i hi hs
      rw [List.mem_range'_1] at hi
      exact hback (hbehind i (by omega) state hs)
    · intro i hi hs
      rw [List.mem_range] at hi
      rw [Buffer.slots, Buffer.ofList, List.append_nil, List.getElem?_append_left hi] at hs
      exact hfront (List.mem_of_getElem? hs)
  · rw [List.erase_of_not_mem hmem, delLoop, foldl_delAt_of_ne]
    · exact List.Perm.refl _
    · intro i _ hi
      exact hmem (List.mem_of_getElem? (by simpa [Buffer.slots, Buffer.ofList] using hi))

variable (σ) in
/-- A list that has no state twice. -/
structure StateList where
  states : List σ
  nodup : states.Nodup

namespace StateList

instance : Membership σ (StateList σ) := ⟨fun l s => s ∈ l.states⟩

theorem mem_states {l : StateList σ} {s : σ} : s ∈ l.states ↔ s ∈ l := Iff.rfl

def empty : StateList σ := ⟨[], List.nodup_nil⟩

@[simp] theorem not_mem_empty (s : σ) : s ∉ (empty : StateList σ) := List.not_mem_nil

/-- `RefList::add` and `UseList::add`, for the vector of the register. -/
def add (l : StateList σ) (state : σ) : StateList σ :=
  if h : state ∈ l.states then l
  else ⟨l.states ++ [state], List.nodup_append.2 ⟨l.nodup, List.nodup_singleton _, fun a ha b hb => by
    rintro rfl
    exact h (List.mem_singleton.1 hb ▸ ha)⟩⟩

def del (l : StateList σ) (state : σ) : StateList σ :=
  ⟨delLoop l.states state, (delLoop_perm l.nodup state).nodup_iff.2 (l.nodup.erase state)⟩

@[simp] theorem mem_add {l : StateList σ} {state s : σ} : s ∈ l.add state ↔ s ∈ l ∨ s = state := by
  rw [add]
  split_ifs with h
  · constructor
    · exact Or.inl
    · rintro (hs | rfl)
      · exact hs
      · exact h
  · rw [← mem_states, ← mem_states, List.mem_append, List.mem_singleton]

@[simp] theorem mem_del {l : StateList σ} {state s : σ} : s ∈ l.del state ↔ s ∈ l ∧ s ≠ state := by
  rw [← mem_states, ← mem_states, del, (delLoop_perm l.nodup state).mem_iff, l.nodup.mem_erase_iff, and_comm]

theorem add_of_mem {l : StateList σ} {state : σ} (h : state ∈ l) : l.add state = l := dif_pos h

end StateList

end StateList

/-! ## The graph -/

variable {σ ρ δ : Type} [DecidableEq σ] [DecidableEq ρ]

variable (σ ρ δ) in
/-- The lists of each state: its definitions, whose definitions it uses and who uses its own. -/
structure UseDefGraph where
  regDef : σ → ρ → Option δ
  regRef : σ → ρ → StateList σ
  regUse : σ → ρ → StateList σ

/-- What one list of a state becomes. -/
def setAt {β : Type} (lists : σ → ρ → β) (s : σ) (reg : ρ) (value : β) : σ → ρ → β :=
  Function.update lists s (Function.update (lists s) reg value)

theorem setAt_apply {β : Type} (lists : σ → ρ → β) (s t : σ) (reg r : ρ) (value : β) :
    setAt lists s reg value t r = if t = s ∧ r = reg then value else lists t r := by
  rw [setAt, Function.update_apply]
  by_cases ht : t = s
  · subst ht
    simp [Function.update_apply]
  · simp [ht]

namespace UseDefGraph

variable (g : UseDefGraph σ ρ δ)

def delRegDef (s : σ) (reg : ρ) : UseDefGraph σ ρ δ := { g with regDef := setAt g.regDef s reg none }

def addRegRef (s : σ) (reg : ρ) (origin : σ) : UseDefGraph σ ρ δ :=
  { g with regRef := setAt g.regRef s reg ((g.regRef s reg).add origin) }

def delRegRef (s : σ) (reg : ρ) : UseDefGraph σ ρ δ := { g with regRef := setAt g.regRef s reg .empty }

def addRegUse (s : σ) (reg : ρ) (state : σ) : UseDefGraph σ ρ δ :=
  { g with regUse := setAt g.regUse s reg ((g.regUse s reg).add state) }

def delRegUse (s : σ) (reg : ρ) (state : σ) : UseDefGraph σ ρ δ :=
  { g with regUse := setAt g.regUse s reg ((g.regUse s reg).del state) }

/-- The inner loop, for a definition `o` that reached the state. -/
def addUses (reg : ρ) (o : σ) (uses : List σ) : UseDefGraph σ ρ δ :=
  uses.foldl (fun g u => (g.addRegUse o reg u).addRegRef u reg o) g

/-- One turn of the outer loop. -/
def cancelOrigin (state : σ) (reg : ρ) (o : σ) : UseDefGraph σ ρ δ :=
  let g := g.delRegUse o reg state
  g.addUses reg o (g.regUse state reg).states

def cancelUseDefReg (state : σ) (reg : ρ) : UseDefGraph σ ρ δ :=
  let g := (g.regRef state reg).states.foldl (fun g o => g.cancelOrigin state reg o) g
  let g := g.delRegDef state reg
  g.delRegRef state reg

/-- A state refers to those that have it in their use lists. -/
def Dual : Prop := ∀ s o reg, o ∈ g.regRef s reg ↔ s ∈ g.regUse o reg

/-- The graph without the state, for the register: the definitions that reached it now reach those that
used its own definition. -/
structure Cancelled (state : σ) (reg : ρ) (g' : UseDefGraph σ ρ δ) : Prop where
  notDefined : g'.regDef state reg = none
  notUsing : ∀ o, o ∉ g'.regRef state reg
  notReferred : ∀ s, state ∉ g'.regRef s reg
  dual : g'.Dual
  rest : ∀ s o, s ≠ state → o ≠ state →
    (o ∈ g'.regRef s reg ↔ o ∈ g.regRef s reg ∨ (s ∈ g.regUse state reg ∧ o ∈ g.regRef state reg))
  otherDefs : ∀ s r, (s, r) ≠ (state, reg) → g'.regDef s r = g.regDef s r
  otherRegs : ∀ s r, r ≠ reg → g'.regRef s r = g.regRef s r ∧ g'.regUse s r = g.regUse s r

/-! ## One edit -/

section Edits

variable {g} {s t x o u : σ} {r reg : ρ}

theorem mem_addRegRef : x ∈ (g.addRegRef u reg o).regRef s r ↔ x ∈ g.regRef s r ∨ (s = u ∧ r = reg ∧ x = o) := by
  simp only [addRegRef, setAt_apply]
  split_ifs with h
  · obtain ⟨rfl, rfl⟩ := h
    simp
  · simp only [← and_assoc, h, false_and, or_false]

theorem mem_addRegUse : x ∈ (g.addRegUse o reg u).regUse s r ↔ x ∈ g.regUse s r ∨ (s = o ∧ r = reg ∧ x = u) := by
  simp only [addRegUse, setAt_apply]
  split_ifs with h
  · obtain ⟨rfl, rfl⟩ := h
    simp
  · simp only [← and_assoc, h, false_and, or_false]

theorem mem_delRegUse : x ∈ (g.delRegUse o reg u).regUse s r ↔ x ∈ g.regUse s r ∧ ¬ (s = o ∧ r = reg ∧ x = u) := by
  simp only [delRegUse, setAt_apply]
  split_ifs with h
  · obtain ⟨rfl, rfl⟩ := h
    simp
  · simp only [← and_assoc, h, false_and, not_false_eq_true, and_true]

end Edits

/-! ## The loops -/

section Loops

variable {g} {state s x o : σ} {r reg : ρ} {uses origins : List σ}

theorem mem_regRef_addUses :
    x ∈ (g.addUses reg o uses).regRef s r ↔ x ∈ g.regRef s r ∨ (s ∈ uses ∧ r = reg ∧ x = o) := by
  induction uses generalizing g with
  | nil => simp [addUses]
  | cons u uses ih =>
    rw [addUses, List.foldl_cons, ← addUses, ih, mem_addRegRef, List.mem_cons, or_assoc, or_and_right]
    rfl

theorem mem_regUse_addUses :
    x ∈ (g.addUses reg o uses).regUse s r ↔ x ∈ g.regUse s r ∨ (s = o ∧ r = reg ∧ x ∈ uses) := by
  induction uses generalizing g with
  | nil => simp [addUses]
  | cons u uses ih =>
    have hhead : x ∈ ((g.addRegUse o reg u).addRegRef u reg o).regUse s r ↔
        x ∈ g.regUse s r ∨ (s = o ∧ r = reg ∧ x = u) := mem_addRegUse
    rw [addUses, List.foldl_cons, ← addUses, ih, hhead, List.mem_cons, or_assoc, ← and_or_left, ← and_or_left]

/-- What is left of the uses of the state when an origin is cancelled: a state that refers to itself
is taken out by its own turn. -/
theorem mem_uses_left :
    x ∈ ((g.delRegUse o reg state).regUse state reg).states ↔ x ∈ g.regUse state reg ∧ ¬ (state = o ∧ x = state) := by
  rw [StateList.mem_states, mem_delRegUse]
  simp

theorem mem_regRef_cancelOrigin : x ∈ (g.cancelOrigin state reg o).regRef s r ↔
    x ∈ g.regRef s r ∨ ((s ∈ g.regUse state reg ∧ ¬ (state = o ∧ s = state)) ∧ r = reg ∧ x = o) := by
  rw [cancelOrigin, mem_regRef_addUses, mem_uses_left]
  rfl

theorem mem_regUse_cancelOrigin : x ∈ (g.cancelOrigin state reg o).regUse s r ↔
    (x ∈ g.regUse s r ∧ ¬ (s = o ∧ r = reg ∧ x = state)) ∨
      (s = o ∧ r = reg ∧ x ∈ g.regUse state reg ∧ ¬ (state = o ∧ x = state)) := by
  rw [cancelOrigin, mem_regUse_addUses, mem_uses_left, mem_delRegUse]

/-- The loop takes no reference away. -/
theorem regRef_loop (h : x ∈ g.regRef s r) :
    x ∈ (origins.foldl (fun g o => g.cancelOrigin state reg o) g).regRef s r := by
  induction origins generalizing g with
  | nil => exact h
  | cons o origins ih => exact ih (mem_regRef_cancelOrigin.2 (Or.inl h))

/-- It takes uses away at the origins only. -/
theorem regUse_loop (hs : s ∉ origins) (h : x ∈ g.regUse s r) :
    x ∈ (origins.foldl (fun g o => g.cancelOrigin state reg o) g).regUse s r := by
  induction origins generalizing g with
  | nil => exact h
  | cons o origins ih =>
    rw [List.mem_cons, not_or] at hs
    exact ih hs.2 (mem_regUse_cancelOrigin.2 (Or.inl ⟨h, fun heq => hs.1 heq.1⟩))

/-- With no use of the state's own definition, the loop takes the state off the lists of its origins. -/
theorem loop_unused (hunused : ∀ x, x ∉ g.regUse state reg) :
    (∀ s r x, x ∈ (origins.foldl (fun g o => g.cancelOrigin state reg o) g).regRef s r ↔ x ∈ g.regRef s r) ∧
    ∀ s r x, x ∈ (origins.foldl (fun g o => g.cancelOrigin state reg o) g).regUse s r ↔
      x ∈ g.regUse s r ∧ ¬ (s ∈ origins ∧ r = reg ∧ x = state) := by
  induction origins generalizing g with
  | nil => simp
  | cons o origins ih =>
    have hrefs : ∀ s r x, x ∈ (g.cancelOrigin state reg o).regRef s r ↔ x ∈ g.regRef s r := fun s r x => by
      simp [mem_regRef_cancelOrigin, hunused]
    have huses : ∀ s r x, x ∈ (g.cancelOrigin state reg o).regUse s r ↔
        x ∈ g.regUse s r ∧ ¬ (s = o ∧ r = reg ∧ x = state) := fun s r x => by
      simp [mem_regUse_cancelOrigin, hunused]
    obtain ⟨hrefs', huses'⟩ := ih fun x hx => hunused x ((huses state reg x).1 hx).1
    refine ⟨fun s r x => ?_, fun s r x => ?_⟩
    · rw [List.foldl_cons, hrefs', hrefs]
    · rw [List.foldl_cons, huses', huses, List.mem_cons, and_assoc, ← not_or, or_and_right]

theorem regDef_addUses : (g.addUses reg o uses).regDef = g.regDef := by
  induction uses generalizing g with
  | nil => rfl
  | cons u uses ih => exact ih

theorem regDef_loop : (origins.foldl (fun g o => g.cancelOrigin state reg o) g).regDef = g.regDef := by
  induction origins generalizing g with
  | nil => rfl
  | cons o origins ih => exact ih.trans regDef_addUses

theorem otherRegs_addUses (hr : r ≠ reg) : (g.addUses reg o uses).regRef s r = g.regRef s r ∧
    (g.addUses reg o uses).regUse s r = g.regUse s r := by
  induction uses generalizing g with
  | nil => exact ⟨rfl, rfl⟩
  | cons u uses ih =>
    rw [addUses, List.foldl_cons, ← addUses, ih.1, ih.2]
    simp only [addRegRef, addRegUse, setAt_apply, hr, and_false, if_false, and_self]

theorem otherRegs_loop (hr : r ≠ reg) :
    (origins.foldl (fun g o => g.cancelOrigin state reg o) g).regRef s r = g.regRef s r ∧
      (origins.foldl (fun g o => g.cancelOrigin state reg o) g).regUse s r = g.regUse s r := by
  induction origins generalizing g with
  | nil => exact ⟨rfl, rfl⟩
  | cons o origins ih =>
    rw [List.foldl_cons, ih.1, ih.2, cancelOrigin, (otherRegs_addUses hr).1, (otherRegs_addUses hr).2]
    simp only [delRegUse, setAt_apply, hr, and_false, if_false, and_self]

/-- The outer loop leaves the vector alone that it goes over. -/
theorem regRef_cancelOrigin_self (ho : o ∈ g.regRef state reg) :
    (g.cancelOrigin state reg o).regRef state reg = g.regRef state reg := by
  have hadd : ∀ (uses : List σ) (g : UseDefGraph σ ρ δ), o ∈ g.regRef state reg →
      (g.addUses reg o uses).regRef state reg = g.regRef state reg := by
    intro uses
    induction uses with
    | nil => exact fun _ _ => rfl
    | cons u uses ih =>
      intro g ho
      have hhead : ((g.addRegUse o reg u).addRegRef u reg o).regRef state reg = g.regRef state reg := by
        simp only [addRegRef, addRegUse, setAt_apply]
        split_ifs with hu
        · rw [← hu.1, StateList.add_of_mem ho]
        · rfl
      rw [addUses, List.foldl_cons, ← addUses, ih _ (hhead ▸ ho), hhead]
  exact hadd _ _ ho

/-- And so does the inner one. -/
theorem regUse_addUses_self (huses : ∀ u ∈ uses, u ∈ g.regUse state reg) :
    (g.addUses reg o uses).regUse state reg = g.regUse state reg := by
  induction uses generalizing g with
  | nil => rfl
  | cons u uses ih =>
    rw [List.forall_mem_cons] at huses
    have hhead : ((g.addRegUse o reg u).addRegRef u reg o).regUse state reg = g.regUse state reg := by
      simp only [addRegRef, addRegUse, setAt_apply]
      split_ifs with ho
      · rw [← ho.1, StateList.add_of_mem huses.1]
      · rfl
    rw [addUses, List.foldl_cons, ← addUses, ih (hhead ▸ huses.2), hhead]

end Loops

/-! ## The cancelled state -/

/-- No other state uses the definition, and a reference of the state to itself is the first of its list. -/
def NotUsed (state : σ) (reg : ρ) : Prop :=
  (g.regUse state reg).states = [] ∨
    ((g.regUse state reg).states = [state] ∧ (g.regRef state reg).states.head? = some state)

section Final

variable {g} {state s o : σ} {reg r : ρ}

/-- After the loop only the state's own lists are emptied. -/
theorem regRef_cancel : (g.cancelUseDefReg state reg).regRef s r =
    if s = state ∧ r = reg then .empty
    else ((g.regRef state reg).states.foldl (fun g o => g.cancelOrigin state reg o) g).regRef s r := by
  simp only [cancelUseDefReg, delRegRef, delRegDef, setAt_apply]

theorem regUse_cancel : (g.cancelUseDefReg state reg).regUse s r =
    ((g.regRef state reg).states.foldl (fun g o => g.cancelOrigin state reg o) g).regUse s r := rfl

theorem regDef_cancel : (g.cancelUseDefReg state reg).regDef s r =
    if s = state ∧ r = reg then none else g.regDef s r := by
  simp only [cancelUseDefReg, delRegRef, delRegDef, setAt_apply, regDef_loop]

/-- The loop on a state that no other uses: its origins have the state no more, and nothing else changes. -/
theorem loop_notUsed (h : g.NotUsed state reg) :
    (∀ s r x, x ∈ ((g.regRef state reg).states.foldl (fun g o => g.cancelOrigin state reg o) g).regRef s r ↔
      x ∈ g.regRef s r) ∧
    ∀ s r x, x ∈ ((g.regRef state reg).states.foldl (fun g o => g.cancelOrigin state reg o) g).regUse s r ↔
      x ∈ g.regUse s r ∧ ¬ (s ∈ g.regRef state reg ∧ r = reg ∧ x = state) := by
  rcases h with hnone | ⟨hself, hhead⟩
  · refine loop_unused fun x hx => ?_
    rw [← StateList.mem_states, hnone] at hx
    exact List.not_mem_nil hx
  · obtain ⟨origins, horigins⟩ := List.head?_eq_some_iff.1 hhead
    have hx : ∀ x, x ∈ g.regUse state reg ↔ x = state := fun x => by
      rw [← StateList.mem_states, hself, List.mem_singleton]
    -- the state's own turn comes first and takes the state off its list
    have hrefs : ∀ s r x, x ∈ (g.cancelOrigin state reg state).regRef s r ↔ x ∈ g.regRef s r := fun s r x => by
      simp [mem_regRef_cancelOrigin, hx]
    have huses : ∀ s r x, x ∈ (g.cancelOrigin state reg state).regUse s r ↔
        x ∈ g.regUse s r ∧ ¬ (s = state ∧ r = reg ∧ x = state) := fun s r x => by
      simp [mem_regUse_cancelOrigin, hx]
    obtain ⟨hrefs', huses'⟩ := @loop_unused σ ρ δ _ _ (g.cancelOrigin state reg state) state reg origins
      fun x hmem => by
        obtain ⟨hmem, hne⟩ := (huses state reg x).1 hmem
        exact hne ⟨rfl, rfl, (hx x).1 hmem⟩
    refine ⟨fun s r x => ?_, fun s r x => ?_⟩
    · rw [horigins, List.foldl_cons, hrefs', hrefs]
    · rw [← StateList.mem_states (l := g.regRef state reg), horigins, List.foldl_cons, huses', huses, List.mem_cons,
        and_assoc, ← not_or, or_and_right]

theorem cancelled_of_notUsed (hdual : g.Dual) (h : g.NotUsed state reg) :
    g.Cancelled state reg (g.cancelUseDefReg state reg) := by
  obtain ⟨hrefs, huses⟩ := loop_notUsed h
  have hself : ∀ u ∈ g.regUse state reg, u = state := by
    intro u hu
    rw [← StateList.mem_states] at hu
    rcases h with hnone | ⟨hself, -⟩
    · rw [hnone] at hu
      exact absurd hu List.not_mem_nil
    · rwa [hself, List.mem_singleton] at hu
  refine ⟨?_, fun o => ?_, fun s hs => ?_, fun s o r => ?_, fun s o hs ho => ?_, fun s r hne => ?_, fun s r hr => ?_⟩
  · rw [regDef_cancel, if_pos ⟨rfl, rfl⟩]
  · rw [regRef_cancel, if_pos ⟨rfl, rfl⟩]
    exact StateList.not_mem_empty o
  · rw [regRef_cancel] at hs
    split_ifs at hs with heq
    · exact StateList.not_mem_empty _ hs
    · exact heq ⟨hself s ((hdual _ _ _).1 ((hrefs _ _ _).1 hs)), rfl⟩
  · rw [regRef_cancel, regUse_cancel, huses, hdual state o reg]
    split_ifs with heq
    · obtain ⟨rfl, rfl⟩ := heq
      simp
    · rw [hrefs, hdual s o r]
      exact (and_iff_left fun hboth => heq ⟨hboth.2.2, hboth.2.1⟩).symm
  · rw [regRef_cancel, if_neg fun heq => hs heq.1, hrefs]
    exact (or_iff_left fun hboth => hs (hself s hboth.1)).symm
  · rw [regDef_cancel, if_neg fun heq => hne (by rw [heq.1, heq.2])]
  · rw [regRef_cancel, if_neg fun heq => hr heq.2, regUse_cancel]
    exact otherRegs_loop hr

theorem notUsed_of_cancelled (hdual : g.Dual) (h : g.Cancelled state reg (g.cancelUseDefReg state reg)) :
    g.NotUsed state reg := by
  have hself : ∀ u ∈ (g.regUse state reg).states, u = state := by
    intro u hu
    by_contra hne
    refine h.notReferred u ?_
    rw [regRef_cancel, if_neg fun heq => hne heq.1]
    exact regRef_loop ((hdual _ _ _).2 hu)
  have hnodup := (g.regUse state reg).nodup
  rw [NotUsed]
  cases huses : (g.regUse state reg).states with
  | nil => exact Or.inl rfl
  | cons u uses =>
    rw [huses] at hself hnodup
    rw [List.forall_mem_cons] at hself
    obtain ⟨rfl, hself⟩ := hself
    have hnil : uses = [] := List.eq_nil_iff_forall_not_mem.2 fun v hv =>
      (List.nodup_cons.1 hnodup).1 (hself v hv ▸ hv)
    subst hnil
    have hu : u ∈ g.regUse u reg := by
      rw [← StateList.mem_states, huses]
      exact List.mem_singleton_self u
    refine Or.inr ⟨rfl, ?_⟩
    have hmem : u ∈ (g.regRef u reg).states := (hdual _ _ _).2 hu
    have hrefs := (g.regRef u reg).nodup
    have hdual' := h.dual
    cases horigins : (g.regRef u reg).states with
    | nil =>
      rw [horigins] at hmem
      exact absurd hmem List.not_mem_nil
    | cons o origins =>
      rw [horigins] at hrefs
      by_cases ho : o = u
      · rw [ho, List.head?_cons]
      · -- the state is put back on the list of the first origin, as a use of its own
        refine absurd ((hdual' u o reg).2 ?_) (h.notUsing o)
        rw [regUse_cancel, horigins, List.foldl_cons]
        refine regUse_loop (List.nodup_cons.1 hrefs).1 (mem_regUse_cancelOrigin.2 (Or.inr ⟨rfl, rfl, hu, ?_⟩))
        exact fun heq => ho heq.1.symm

end Final

/-- Where the edit yields the graph without the state. -/
theorem cancelled_iff (hdual : g.Dual) (state : σ) (reg : ρ) :
    g.Cancelled state reg (g.cancelUseDefReg state reg) ↔ g.NotUsed state reg :=
  ⟨notUsed_of_cancelled hdual, cancelled_of_notUsed hdual⟩

/-! ## A call between a definition and a use -/

/-- The definition of 0 reaches 1, and that of 1 reaches the states in the list. -/
def callGraph (users : List Nat) : UseDefGraph Nat Nat Unit where
  regDef s r := if s ≤ 1 ∧ r = 0 then some () else none
  regRef s r :=
    if s = 1 ∧ r = 0 then StateList.empty.add 0
    else if s ∈ users ∧ r = 0 then StateList.empty.add 1
    else .empty
  regUse s r :=
    if s = 0 ∧ r = 0 then StateList.empty.add 1
    else if s = 1 ∧ r = 0 then users.foldl StateList.add .empty
    else .empty

theorem dual_callGraph : (callGraph []).Dual ∧ (callGraph [2]).Dual := by
  constructor
  · intro s o r
    simp only [callGraph, List.not_mem_nil, false_and, if_false, List.foldl_nil, ite_self]
    grind [StateList.mem_add, StateList.not_mem_empty]
  · intro s o r
    simp only [callGraph, List.mem_singleton, List.foldl_cons, List.foldl_nil]
    grind [StateList.mem_add, StateList.not_mem_empty]

theorem cancelled_iff_call : (callGraph []).Cancelled 1 0 ((callGraph []).cancelUseDefReg 1 0) :=
  (cancelled_iff (callGraph []) dual_callGraph.1 1 0).2 (Or.inl rfl)

/-- A later use keeps its reference to the cancelled call. -/
theorem use_of_call_kept :
    ¬ ∀ (g : UseDefGraph Nat Nat Unit) (state reg : Nat), g.Dual → g.Cancelled state reg (g.cancelUseDefReg state reg) := by
  intro h
  refine (h (callGraph [2]) 1 0 dual_callGraph.2).notReferred 2 (StateList.mem_states.1 ?_)
  decide

end UseDefGraph

end Egalito.Analysis.CancelUse
