import Egalito.Analysis.BoundSearch
/-!
# Termination of the bound search

Every call that `parseBound` makes is on a definition of the register, for the
register that the definition moves or uses as an index. The searches end where
no call is made again while it is active; a loop that moves two registers back
and forth makes calls without end.
-/

open Relation Egalito.Lib

namespace Egalito.Analysis

namespace JumptableDetection

variable {State α β : Type}

/-! ## The calls of a search -/

/-- Whatever the memory is, the search makes only calls with `P`. -/
def CallsOnly (P : Call State → Prop) (search : BoundSearch State α) : Prop := ∀ memory, (search memory).All P

section

variable {P : Call State → Prop}

theorem callsOnly_pure (a : α) : CallsOnly P (pure a : BoundSearch State α) := fun _ => trivial

theorem callsOnly_get : CallsOnly P (get : BoundSearch State Memory) := fun _ => trivial

theorem callsOnly_modify (f : Memory → Memory) : CallsOnly P (modify f : BoundSearch State Unit) := fun _ => trivial

theorem CallsOnly.bind {search : BoundSearch State α} {f : α → BoundSearch State β} (h : CallsOnly P search)
    (hf : ∀ a, CallsOnly P (f a)) : CallsOnly P (search >>= f) :=
  fun memory => Proc.all_bind (h memory) fun r => hf r.1 r.2

theorem CallsOnly.ite {c : Prop} [Decidable c] {a b : BoundSearch State α} (ha : CallsOnly P a) (hb : CallsOnly P b) :
    CallsOnly P (if c then a else b) := by
  split
  · exact ha
  · exact hb

/-- A search that goes on with what another one has found. -/
theorem CallsOnly.cond {search : BoundSearch State Bool} {a b : BoundSearch State α} (h : CallsOnly P search) (ha : CallsOnly P a)
    (hb : CallsOnly P b) : CallsOnly P (do if ← search then a else b) := h.bind fun _ => .ite ha hb

theorem callsOnly_anyM {f : β → BoundSearch State Bool} {l : List β} (h : ∀ x ∈ l, CallsOnly P (f x)) :
    CallsOnly P (l.anyM f) := by
  induction l with
  | nil => exact callsOnly_pure false
  | cons x l ih =>
    rw [List.anyM]
    refine (h x List.mem_cons_self).bind fun found => ?_
    cases found with
    | false => exact ih fun y hy => h y (List.mem_cons_of_mem x hy)
    | true => exact callsOnly_pure true

theorem callsOnly_setEntries (entries : BitVec 64) : CallsOnly P (setEntries entries : BoundSearch State Unit) :=
  callsOnly_modify _

/-- Setting the entries and returning. -/
theorem callsOnly_found (entries : BitVec 64) (found : Bool) :
    CallsOnly P (do setEntries entries; return found : BoundSearch State Bool) :=
  (callsOnly_setEntries entries).bind fun _ => callsOnly_pure found

variable (d : JumptableDetection State)

theorem callsOnly_getBoundFromCompare (state : State) (bound : BitVec 64) (jumpState : State) :
    CallsOnly P (d.getBoundFromCompare state bound jumpState) := by
  unfold getBoundFromCompare
  split
  · exact callsOnly_found _ true
  · exact callsOnly_pure false

theorem callsOnly_searchDownUse {form : TreeNode → Option β} {state : State} {reg : Int}
    {parser : State → Int → β → BoundSearch State Bool} (h : ∀ s r cap, CallsOnly P (parser s r cap)) :
    CallsOnly P (d.searchDownUse form state reg parser) := by
  refine callsOnly_anyM fun s _ => callsOnly_anyM fun x _ => ?_
  dsimp only
  split
  · exact h _ _ _
  · exact callsOnly_pure false

theorem callsOnly_searchUpDef {form : TreeNode → Option β} {state : State} {reg : Int}
    {parser : State → β → BoundSearch State Bool} (h : ∀ s cap, CallsOnly P (parser s cap)) :
    CallsOnly P (d.searchUpDef form state reg parser) := by
  refine callsOnly_anyM fun s _ => ?_
  split
  · exact h _ _
  · exact callsOnly_pure false

theorem callsOnly_parseComparison (jumpState s : State) (r : Int) (cap : Int × BitVec 64) :
    CallsOnly P (d.parseComparison jumpState s r cap) := by
  refine .ite (.cond (d.callsOnly_getBoundFromCompare s cap.2 jumpState) ?_ (callsOnly_pure false))
    (callsOnly_pure false)
  refine callsOnly_anyM fun jump _ => callsOnly_get.bind fun memory => ?_
  split
  · exact callsOnly_found _ true
  · exact callsOnly_pure false

theorem callsOnly_getBoundFromAnd (state : State) (reg : Int) : CallsOnly P (d.getBoundFromAnd state reg) := by
  unfold getBoundFromAnd
  split
  · exact callsOnly_found _ true
  · exact callsOnly_pure false

theorem callsOnly_getBoundFromSub (state : State) (reg : Int) : CallsOnly P (d.getBoundFromSub state reg) := by
  unfold getBoundFromSub
  split
  · exact callsOnly_anyM fun ref _ => d.callsOnly_getBoundFromAnd ref _
  · exact callsOnly_pure false

theorem callsOnly_getBoundFromArgument (jumpState state : State) (reg : Int) :
    CallsOnly P (d.getBoundFromArgument jumpState state reg) :=
  callsOnly_anyM fun s _ => d.callsOnly_searchUpDef fun s' cap =>
    .ite (d.callsOnly_getBoundFromCompare s' cap.2 jumpState) (callsOnly_pure false)

theorem callsOnly_getBoundFromLoad (jumpState state : State) (reg : Int) :
    CallsOnly P (d.getBoundFromLoad jumpState state reg) := by
  unfold getBoundFromLoad
  split
  · exact callsOnly_found _ true
  · exact callsOnly_pure false

theorem callsOnly_getBoundFromControlFlow (jumpState state : State) (reg : Int) :
    CallsOnly P (d.getBoundFromControlFlow jumpState state reg) := by
  refine callsOnly_anyM fun jstate _ => callsOnly_anyM fun test _ => ?_
  split
  · refine .cond (d.callsOnly_getBoundFromCompare _ _ jumpState) (callsOnly_get.bind fun memory => ?_)
      (callsOnly_pure false)
    split
    · exact callsOnly_found _ true
    · exact callsOnly_found 0 false
  · exact callsOnly_pure false

/-! ## The calls on a definition -/

theorem callsOnly_getBoundFromMove {jumpState state : State} {reg : Int}
    (h : ∀ reg' memory, (d.graph.getRegDef state reg).bind moveForm = some reg' → P ⟨state, reg', jumpState, memory⟩) :
    CallsOnly P (d.getBoundFromMove jumpState state reg) := by
  unfold getBoundFromMove
  split
  · rename_i reg' hmove
    refine .cond (callsOnly_anyM fun s _ => ?_) (callsOnly_pure true) fun memory => ⟨h reg' memory hmove, fun _ => trivial⟩
    split
    · exact .ite (d.callsOnly_getBoundFromCompare s _ jumpState) (callsOnly_pure false)
    · exact callsOnly_pure false
  · exact callsOnly_pure false

theorem callsOnly_parseIndexBound {known : Option IndextableInfo} {state : State} {reg : Int}
    (h : ∀ memory, P ⟨state, reg, state, memory⟩) : CallsOnly P (parseIndexBound known state reg) := by
  refine .ite (callsOnly_pure 0) (callsOnly_get.bind fun memory => ?_)
  refine .bind (fun memory => ⟨h memory, fun _ => trivial⟩) fun _ => ?_
  exact callsOnly_get.bind fun memory => (callsOnly_setEntries _).bind fun _ => callsOnly_pure _

theorem callsOnly_boundFromTable {state : State} {base : BitVec 64} {reg₂ : Int} {scale : BitVec 64}
    (h : ∀ memory, P ⟨state, reg₂, state, memory⟩) : CallsOnly P (d.boundFromTable state base reg₂ scale) := by
  refine callsOnly_get.bind fun memory => (callsOnly_parseIndexBound h).bind fun entries => ?_
  refine callsOnly_get.bind fun memory => (callsOnly_modify _).bind fun _ => ?_
  split
  · exact callsOnly_found _ true
  · exact callsOnly_found 1 true
  · exact callsOnly_pure false

theorem callsOnly_getBoundFromIndexTable {jumpState state : State} {reg : Int}
    (h : ∀ access memory, (d.graph.getRegDef state reg).bind indexTableAccessForm = some access →
      P ⟨state, access.2.2.1, state, memory⟩) :
    CallsOnly P (d.getBoundFromIndexTable jumpState state reg) := by
  unfold getBoundFromIndexTable
  split
  · rename_i location reg₁ reg₂ scale haccess
    refine .cond (callsOnly_anyM fun s _ => d.callsOnly_searchDownUse fun s' r cap => ?_) (callsOnly_pure true) ?_
    · exact .ite (d.callsOnly_getBoundFromCompare s' _ jumpState) (callsOnly_pure false)
    · split
      · exact d.callsOnly_boundFromTable fun memory => h _ memory haccess
      · exact callsOnly_pure false
  · exact callsOnly_pure false

/-- The definitions that lead to another call: register moves and reads of index tables. -/
def LeadsTo (call call' : Call State) : Prop :=
  call'.state ∈ d.graph.getRegRef call.state call.reg ∧
    ((d.graph.getRegDef call'.state call.reg).bind moveForm = some call'.reg ∨
      ∃ access, (d.graph.getRegDef call'.state call.reg).bind indexTableAccessForm = some access ∧
        access.2.2.1 = call'.reg)

variable [DecidableEq State]

theorem callsOnly_parseBound (call : Call State) :
    CallsOnly (d.LeadsTo call) (d.parseBound call.jumpState call.state call.reg) := by
  have hmove : ∀ s ∈ d.graph.getRegRef call.state call.reg,
      CallsOnly (d.LeadsTo call) (d.getBoundFromMove call.jumpState s call.reg) := fun s hs =>
    d.callsOnly_getBoundFromMove fun reg' memory h => ⟨hs, .inl h⟩
  have hindex : ∀ s ∈ d.graph.getRegRef call.state call.reg,
      CallsOnly (d.LeadsTo call) (d.getBoundFromIndexTable call.jumpState s call.reg) := fun s hs =>
    d.callsOnly_getBoundFromIndexTable fun access memory h => ⟨hs, .inr ⟨access, h, rfl⟩⟩
  refine callsOnly_anyM fun search hsearch => ?_
  simp only [List.mem_cons, List.not_mem_nil, or_false] at hsearch
  rcases hsearch with rfl | rfl | rfl | rfl | rfl | rfl
  · exact callsOnly_anyM fun s _ => d.callsOnly_searchDownUse fun s' r cap => d.callsOnly_parseComparison _ s' r cap
  · refine callsOnly_anyM fun s hs => callsOnly_anyM fun search' hsearch' => ?_
    have hs := (List.mem_filter.1 hs).1
    simp only [List.mem_cons, List.not_mem_nil, or_false] at hsearch'
    rcases hsearch' with rfl | rfl | rfl | rfl
    · exact d.callsOnly_getBoundFromSub s call.reg
    · exact d.callsOnly_getBoundFromAnd s call.reg
    · exact hmove s hs
    · exact hindex s hs
  · exact .ite (d.callsOnly_getBoundFromArgument _ _ _) (callsOnly_pure false)
  · exact d.callsOnly_getBoundFromLoad _ _ _
  · exact callsOnly_anyM hmove
  · exact d.callsOnly_getBoundFromControlFlow _ _ _

theorem leadsTo_of_calls {call call' : Call State} (h : Calls d.body call call') : d.LeadsTo call call' :=
  h.of_all (d.callsOnly_parseBound call call.memory)

/-- Where moves and index tables do not lead in a circle, the search terminates. -/
theorem terminates_of_acc_leadsTo {call : Call State} (h : Acc (fun call' call => d.LeadsTo call call') call) :
    Terminates d.body call := terminates_of_acc (fun _ _ => d.leadsTo_of_calls) h

end

/-! ## Finitely many calls -/

instance {w : Nat} : Finite (BitVec w) := Finite.of_injective BitVec.toFin fun _ _ => BitVec.eq_of_toFin_eq

instance : Finite IndextableInfo :=
  Finite.of_injective (fun info => (info.scale, info.entries)) fun a b h => by
    cases a
    cases b
    simpa using h

instance : Finite Memory :=
  Finite.of_injective (fun memory => (memory.entries, memory.indexTables)) fun a b h => by
    cases a
    cases b
    simpa using h

variable (d : JumptableDetection State)

/-- The registers that the definition `tree` can lead to. -/
def nextRegisters (tree : Option TreeNode) : Set Int :=
  {reg | tree.bind moveForm = some reg ∨ ∃ access, tree.bind indexTableAccessForm = some access ∧ access.2.2.1 = reg}

theorem finite_nextRegisters (tree : Option TreeNode) : (nextRegisters tree).Finite := by
  refine Set.Finite.subset (s := {reg | tree.bind moveForm = some reg} ∪
    (fun access => access.2.2.1) '' {access | tree.bind indexTableAccessForm = some access}) ?_ ?_
  · refine .union ?_ (.image _ ?_)
    · exact Set.Subsingleton.finite fun a ha b hb => Option.some.inj (ha.symm.trans hb)
    · exact Set.Subsingleton.finite fun a ha b hb => Option.some.inj (ha.symm.trans hb)
  · rintro reg (h | ⟨access, h, rfl⟩)
    · exact .inl h
    · exact .inr ⟨access, h, rfl⟩

theorem finite_definitions [Finite State] : {tree | ∃ s reg, d.graph.getRegDef s reg = some tree}.Finite := by
  refine Set.Finite.subset (s := ⋃ s, {tree | tree ∈ (d.graph.getRegDefList s).filterMap Prod.snd}) ?_ ?_
  · exact Set.finite_iUnion fun s => List.finite_toSet _
  · rintro tree ⟨s, reg, h⟩
    rw [UseDefGraph.getRegDef, Option.join_eq_some_iff, List.lookup_eq_some_iff] at h
    obtain ⟨before, after, h, -⟩ := h
    refine Set.mem_iUnion.2 ⟨s, List.mem_filterMap.2 ⟨(reg, some tree), ?_, rfl⟩⟩
    rw [h]
    exact List.mem_append_right _ List.mem_cons_self

/-- The calls for the register of `call` and for those that definitions lead to. -/
def possibleCalls (call : Call State) : Set (Call State) :=
  {call' | call'.reg = call.reg ∨ ∃ s reg, call'.reg ∈ nextRegisters (d.graph.getRegDef s reg)}

theorem finite_possibleCalls [Finite State] (call : Call State) : (d.possibleCalls call).Finite := by
  let registers : Set Int :=
    {call.reg} ∪ ⋃ tree ∈ {tree | ∃ s reg, d.graph.getRegDef s reg = some tree}, nextRegisters (some tree)
  have hregisters : registers.Finite :=
    (Set.finite_singleton _).union (d.finite_definitions.biUnion fun tree _ => finite_nextRegisters (some tree))
  have := hregisters.to_subtype
  refine Set.Finite.subset (s := Set.range fun x : State × registers × State × Memory =>
    (⟨x.1, x.2.1, x.2.2.1, x.2.2.2⟩ : Call State)) (Set.finite_range _) fun call' h => ?_
  suffices call'.reg ∈ registers from ⟨(call'.state, ⟨call'.reg, this⟩, call'.jumpState, call'.memory), rfl⟩
  rcases h with h | ⟨s, reg, h⟩
  · exact .inl h
  · cases htree : d.graph.getRegDef s reg with
    | none =>
      rw [htree] at h
      rcases h with h | ⟨_, h, -⟩ <;> cases h
    | some tree =>
      rw [htree] at h
      exact .inr (Set.mem_biUnion ⟨s, reg, htree⟩ h)

theorem possibleCalls_closed [DecidableEq State] {call call₁ call₂ : Call State} (h : Calls d.body call₁ call₂) :
    call₂ ∈ d.possibleCalls call := by
  obtain ⟨-, hnext⟩ := d.leadsTo_of_calls h
  exact .inr ⟨_, _, hnext⟩

end JumptableDetection

/-! ## Two moves -/

/-- A function without comparisons, in one block. -/
def withoutComparisons (graph : UseDefGraph (Fin 3)) : JumptableDetection (Fin 3) where
  graph
  parent _ := 0
  elf := { mapEnd := 0, copyBase := 0, memory := fun _ => 0 }
  comparedEntries _ _ _ := none
  collectJumpsTo _ := []
  valueReaches _ _ _ _ _ := none
  precedingJumps _ := []
  precedingStates _ := []
  isOnTheWay _ _ _ _ := false
  loadedEntries _ _ _ := none
  parseBaseAddress _ _ := none
  sameLocation _ _ := false

/-- `0: mov rbx, rax`, `1: mov rax, rbx` and the access `2` through `rax`. In a loop, `0` moves what `1` has moved. -/
def twoMoves (loop : Bool) : JumptableDetection (Fin 3) :=
  withoutComparisons
    { getRegDefList
        | 0 => [(3, some (.physicalRegister 0 8))]
        | 1 => [(0, some (.physicalRegister 3 8))]
        | 2 => []
      getRegRef
        | 0, 0 => if loop then [1] else []
        | 1, 3 => [0]
        | 2, 0 => [1]
        | _, _ => []
      getRegUse _ _ := [] }

def noMemory : Memory := { entries := 0, indexTables := fun _ => none }

end Egalito.Analysis
