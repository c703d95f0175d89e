import Egalito.Analysis.SlicingTree
/-!
# System call numbers

`FindSyscalls` of `pass/findsyscalls.cpp` reports the constants that can be in a
register at a system call. The search goes from a state to the definitions that
it references, and on through register moves; what a nested search answers is
not looked at, and of the definitions of a state it takes the last.
-/

open Egalito.Analysis

namespace Egalito.FindSyscalls

variable {State : Type}

/-! ## The search -/

/-- What `getRegisterValue` returns, with the members and the set it changes. -/
structure Lookup (State : Type) where
  allConstants : Bool
  seen : List State
  values : Finset (BitVec 64)

/-- The tree in `node` after the loop over the definitions of a state, of any register. -/
def lastDefinition (graph : UseDefGraph State) (s : State) : Option TreeNode :=
  (graph.getRegDefList s).foldl (fun node pair => pair.2.or node) none

/-- The loop over the states referenced. -/
def visitRefs (graph : UseDefGraph State)
    (lookup : State → Int → List State → Finset (BitVec 64) → Option (Lookup State)) :
    List State → Lookup State → Option (Lookup State)
  | [], found => some found
  | s :: refs, found =>
    match lastDefinition graph s with
    | some (.constant value) => visitRefs graph lookup refs { found with values := insert value found.values }
    | some (.physicalRegister reg _) =>
      match lookup s reg found.seen found.values with
      | none => none
      -- the result of the nested search is dropped
      | some nested => visitRefs graph lookup refs { nested with allConstants := found.allConstants }
    | _ => visitRefs graph lookup refs { found with allConstants := false }

variable [DecidableEq State]

/-- `getRegisterValue`; `none` when the recursion goes deeper than the fuel. A state is seen once it has been visited. -/
def getRegisterValue (graph : UseDefGraph State) : Nat → State → Int → List State → Finset (BitVec 64) →
    Option (Lookup State)
  | 0, _, _, _, _ => none
  | fuel + 1, state, curreg, seen, values =>
    if state ∈ seen then some ⟨true, seen, values⟩
    else if (graph.getRegRef state curreg).isEmpty then some ⟨false, seen, values⟩
    else
      match visitRefs graph (getRegisterValue graph fuel) (graph.getRegRef state curreg) ⟨true, seen, values⟩ with
      | none => none
      | some found => some { found with seen := state :: found.seen }

/-- What `visit` puts into `numberMap` for a call at `state`: the values, or nothing and a warning. -/
def numbers (graph : UseDefGraph State) (fuel : Nat) (state : State) (reg : Int) : Option (Option (Finset (BitVec 64))) :=
  (getRegisterValue graph fuel state reg [] ∅).map fun found => if found.allConstants then some found.values else none

/-! ## Reaching definitions -/

section

variable (graph : UseDefGraph State)

/-- The register is defined by one of the constants, or by a register move. -/
def Known (values : Finset (BitVec 64)) (s : State) (reg : Int) : Prop :=
  (∃ value ∈ values, graph.getRegDef s reg = some (.constant value)) ∨
  ∃ reg' width, graph.getRegDef s reg = some (.physicalRegister reg' width)

/-- Every chain of register moves ends, and ends in one of the constants. -/
inductive EndsInConstants (values : Finset (BitVec 64)) : State → Int → Prop
  | intro {state reg} (hrefs : graph.getRegRef state reg ≠ [])
    (hknown : ∀ s ∈ graph.getRegRef state reg, Known graph values s reg)
    (hmove : ∀ s ∈ graph.getRegRef state reg, ∀ reg' width,
      graph.getRegDef s reg = some (.physicalRegister reg' width) → EndsInConstants values s reg') :
    EndsInConstants values state reg

/-- The registers that chains of moves lead to. -/
inductive Follows (state : State) (reg : Int) : State → Int → Prop
  | refl : Follows state reg state reg
  | move {s s' reg₁ reg₂ width} (h : Follows state reg s reg₁) (hs : s' ∈ graph.getRegRef s reg₁)
    (hdef : graph.getRegDef s' reg₁ = some (.physicalRegister reg₂ width)) : Follows state reg s' reg₂

/-- The registers behind at least one move. -/
def Behind (state : State) (reg : Int) (s' : State) (reg₂ : Int) : Prop :=
  ∃ s reg₁ width, Follows graph state reg s reg₁ ∧ s' ∈ graph.getRegRef s reg₁ ∧
    graph.getRegDef s' reg₁ = some (.physicalRegister reg₂ width)

/-- A register with a reaching definition, whose definitions are constants and register moves. -/
def Traceable (state : State) (reg : Int) : Prop :=
  graph.getRegRef state reg ≠ [] ∧
    ∀ s ∈ graph.getRegRef state reg, ∃ tree, graph.getRegDef s reg = some tree ∧
      ((∃ value, tree = .constant value) ∨ ∃ reg' width, tree = .physicalRegister reg' width)

/-- The definitions that chains lead to are the last ones of their states. -/
def LastDefined (state : State) (reg : Int) : Prop :=
  ∀ s reg₁, Follows graph state reg s reg₁ → ∀ s' ∈ graph.getRegRef s reg₁,
    lastDefinition graph s' = graph.getRegDef s' reg₁

end

section

variable {graph : UseDefGraph State} {values values' : Finset (BitVec 64)} {state : State} {reg : Int}

theorem EndsInConstants.mono (h : EndsInConstants graph values state reg) (hle : values ⊆ values') :
    EndsInConstants graph values' state reg := by
  induction h with
  | intro hrefs hknown _ ih =>
    refine .intro hrefs (fun s hs => ?_) ih
    exact (hknown s hs).imp_left fun ⟨value, hvalue, hdef⟩ => ⟨value, hle hvalue, hdef⟩

/-- Behind a move, too, every chain ends in a constant. -/
theorem EndsInConstants.follows (h : EndsInConstants graph values state reg) {s : State} {reg₁ : Int}
    (hfollows : Follows graph state reg s reg₁) : EndsInConstants graph values s reg₁ := by
  induction hfollows with
  | refl => exact h
  | move _ hs hdef ih =>
    cases ih with
    | intro _ _ hmove => exact hmove _ hs _ _ hdef

theorem EndsInConstants.traceable (h : EndsInConstants graph values state reg) : Traceable graph state reg := by
  cases h with
  | intro hrefs hknown _ =>
    refine ⟨hrefs, fun s hs => ?_⟩
    rcases hknown s hs with ⟨value, -, hdef⟩ | ⟨reg', width, hdef⟩
    · exact ⟨_, hdef, .inl ⟨value, rfl⟩⟩
    · exact ⟨_, hdef, .inr ⟨reg', width, rfl⟩⟩

theorem Behind.follows {s : State} {reg₁ : Int} (h : Behind graph state reg s reg₁) : Follows graph state reg s reg₁ := by
  obtain ⟨s₀, reg₀, width, hfollows, hs, hdef⟩ := h
  exact .move hfollows hs hdef

/-- Where the last definitions are the ones followed, a state behind a move is asked for one register only. -/
theorem LastDefined.unique (h : LastDefined graph state reg) {s : State} {reg₁ reg₂ : Int}
    (h₁ : Behind graph state reg s reg₁) (h₂ : Behind graph state reg s reg₂) : reg₁ = reg₂ := by
  obtain ⟨s₁, r₁, w₁, hfollows₁, hs₁, hdef₁⟩ := h₁
  obtain ⟨s₂, r₂, w₂, hfollows₂, hs₂, hdef₂⟩ := h₂
  have hlast := (h s₁ r₁ hfollows₁ s hs₁).symm.trans (h s₂ r₂ hfollows₂ s hs₂)
  rw [hdef₁, hdef₂] at hlast
  cases hlast
  rfl

/-! ## What a search finds -/

/-- The chains from the registers of visited states, behind a move, end in constants that have been found. -/
def SeenSound (graph : UseDefGraph State) (state : State) (reg : Int) (seen : List State)
    (values : Finset (BitVec 64)) : Prop :=
  ∀ s ∈ seen, ∀ reg₁, Behind graph state reg s reg₁ → EndsInConstants graph values s reg₁

theorem SeenSound.mono {seen : List State} (h : SeenSound graph state reg seen values) (hle : values ⊆ values') :
    SeenSound graph state reg seen values' := fun s hs reg₁ hbehind => (h s hs reg₁ hbehind).mono hle

/-- What a search of a register has to give: it ends in constants that are found, and the visited states are kept sound. -/
structure Finds (graph : UseDefGraph State) (state : State) (reg : Int) (s : State) (reg₁ : Int)
    (values : Finset (BitVec 64)) (found : Lookup State) : Prop where
  subset : values ⊆ found.values
  seenSound : SeenSound graph state reg found.seen found.values
  ends : EndsInConstants graph found.values s reg₁

variable {lookup : State → Int → List State → Finset (BitVec 64) → Option (Lookup State)}

/-- The loop over the references of a register that can be traced, when the nested searches find what they have to. -/
theorem visitRefs_finds {s : State} {reg₁ : Int} (hlast : LastDefined graph state reg)
    (hlookup : ∀ s' reg' seen values found, Behind graph state reg s' reg' → SeenSound graph state reg seen values →
      lookup s' reg' seen values = some found → Finds graph state reg s' reg' values found)
    (hfollows : Follows graph state reg s reg₁) (htrace : Traceable graph s reg₁) {refs : List State}
    (hrefs : ∀ s' ∈ refs, s' ∈ graph.getRegRef s reg₁) (found : Lookup State) {found' : Lookup State}
    (hseen : SeenSound graph state reg found.seen found.values)
    (h : visitRefs graph lookup refs found = some found') :
    found.values ⊆ found'.values ∧ SeenSound graph state reg found'.seen found'.values ∧
      ∀ s' ∈ refs, Known graph found'.values s' reg₁ ∧ ∀ reg' width,
        graph.getRegDef s' reg₁ = some (.physicalRegister reg' width) → EndsInConstants graph found'.values s' reg' := by
  induction refs generalizing found with
  | nil =>
    cases h
    exact ⟨subset_rfl, hseen, fun _ h => nomatch h⟩
  | cons s' refs ih =>
    have hs' := hrefs s' List.mem_cons_self
    have hrest : ∀ s'' ∈ refs, s'' ∈ graph.getRegRef s reg₁ := fun s'' h => hrefs s'' (List.mem_cons_of_mem _ h)
    obtain ⟨tree, hdef, htree⟩ := htrace.2 s' hs'
    rw [visitRefs, hlast s reg₁ hfollows s' hs', hdef] at h
    rcases htree with ⟨value, rfl⟩ | ⟨reg', width, rfl⟩
    · obtain ⟨hle, hseen', hall⟩ := ih hrest { found with values := insert value found.values }
        (hseen.mono (Finset.subset_insert value _)) h
      refine ⟨(Finset.subset_insert value _).trans hle, hseen', List.forall_mem_cons.2 ⟨⟨?_, ?_⟩, hall⟩⟩
      · exact .inl ⟨value, hle (Finset.mem_insert_self _ _), hdef⟩
      · intro reg' width hmove
        rw [hdef] at hmove
        cases hmove
    · cases hnested : lookup s' reg' found.seen found.values with
      | none => simp [hnested] at h
      | some nested =>
        simp only [hnested] at h
        have hfinds := hlookup s' reg' _ _ nested ⟨s, reg₁, width, hfollows, hs', hdef⟩ hseen hnested
        obtain ⟨hle, hseen', hall⟩ := ih hrest { nested with allConstants := found.allConstants } hfinds.seenSound h
        refine ⟨hfinds.subset.trans hle, hseen', List.forall_mem_cons.2 ⟨⟨.inr ⟨reg', width, hdef⟩, ?_⟩, hall⟩⟩
        intro reg'' width' hmove
        rw [hdef] at hmove
        cases hmove
        exact hfinds.ends.mono hle

/-- The loop keeps `all_constants` only when every tree it takes is a constant or a register. -/
theorem visitRefs_allConstants {refs : List State} {found found' : Lookup State}
    (h : visitRefs graph lookup refs found = some found') (hall : found'.allConstants = true) :
    found.allConstants = true ∧ ∀ s ∈ refs, ∃ tree, lastDefinition graph s = some tree ∧
      ((∃ value, tree = .constant value) ∨ ∃ reg' width, tree = .physicalRegister reg' width) := by
  induction refs generalizing found with
  | nil =>
    cases h
    exact ⟨hall, fun _ h => nomatch h⟩
  | cons s refs ih =>
    rw [visitRefs] at h
    split at h
    · rename_i value htree
      obtain ⟨hfound, hrest⟩ := ih h
      exact ⟨hfound, List.forall_mem_cons.2 ⟨⟨_, htree, .inl ⟨value, rfl⟩⟩, hrest⟩⟩
    · rename_i reg' width htree
      split at h
      · cases h
      · obtain ⟨hfound, hrest⟩ := ih h
        exact ⟨hfound, List.forall_mem_cons.2 ⟨⟨_, htree, .inr ⟨reg', width, rfl⟩⟩, hrest⟩⟩
    · exact absurd (ih h).1 Bool.false_ne_true

theorem getRegisterValue_finds (hlast : LastDefined graph state reg)
    (htrace : ∀ s reg₁, Behind graph state reg s reg₁ → Traceable graph s reg₁) (fuel : Nat) :
    ∀ s reg₁ seen values found, Behind graph state reg s reg₁ → SeenSound graph state reg seen values →
      getRegisterValue graph fuel s reg₁ seen values = some found → Finds graph state reg s reg₁ values found := by
  induction fuel with
  | zero => exact fun _ _ _ _ _ _ _ h => nomatch h
  | succ fuel ih =>
    intro s reg₁ seen values found hbehind hseen h
    rw [getRegisterValue] at h
    split at h
    · rename_i hmem
      cases h
      exact ⟨subset_rfl, hseen, hseen s hmem reg₁ hbehind⟩
    · rw [if_neg (by simpa using (htrace s reg₁ hbehind).1)] at h
      split at h
      · cases h
      · rename_i found₁ hvisit
        cases h
        obtain ⟨hle, hseen', hall⟩ := visitRefs_finds hlast ih hbehind.follows (htrace s reg₁ hbehind)
          (fun _ h => h) ⟨true, seen, values⟩ hseen hvisit
        have hends : EndsInConstants graph found₁.values s reg₁ :=
          .intro (htrace s reg₁ hbehind).1 (fun s' hs' => (hall s' hs').1) (fun s' hs' => (hall s' hs').2)
        refine ⟨hle, List.forall_mem_cons.2 ⟨fun reg₂ hbehind₂ => ?_, hseen'⟩, hends⟩
        exact hlast.unique hbehind hbehind₂ ▸ hends

/-- Where numbers are reported, chains of moves end in them only if every register behind a move can be traced. That is
enough where each definition followed is the last one of its state. -/
theorem numbers_sound {fuel : Nat} (h : numbers graph fuel state reg = some (some values)) :
    (EndsInConstants graph values state reg →
      ∀ s reg₁, Behind graph state reg s reg₁ → Traceable graph s reg₁) ∧
    (LastDefined graph state reg → (∀ s reg₁, Behind graph state reg s reg₁ → Traceable graph s reg₁) →
      EndsInConstants graph values state reg) := by
  refine ⟨fun hends s reg₁ hbehind => (hends.follows hbehind.follows).traceable, fun hlast htrace => ?_⟩
  obtain ⟨found, hfound, hvalues⟩ := Option.map_eq_some_iff.1 h
  rw [Option.ite_none_right_eq_some] at hvalues
  obtain ⟨hall, hvalues⟩ := hvalues
  cases hvalues
  cases fuel with
  | zero => cases hfound
  | succ fuel =>
    rw [getRegisterValue, if_neg (List.not_mem_nil)] at hfound
    split at hfound
    · cases hfound
      cases hall
    · rename_i hrefs
      split at hfound
      · cases hfound
      · rename_i found₁ hvisit
        cases hfound
        have hne : graph.getRegRef state reg ≠ [] := by simpa using hrefs
        have htop : Traceable graph state reg := by
          refine ⟨hne, fun s hs => ?_⟩
          rw [← hlast state reg .refl s hs]
          exact (visitRefs_allConstants hvisit hall).2 s hs
        obtain ⟨-, -, hknown⟩ := visitRefs_finds hlast (getRegisterValue_finds hlast htrace fuel) .refl htop
          (fun _ h => h) ⟨true, [], ∅⟩ (fun s hs => absurd hs List.not_mem_nil) hvisit
        exact .intro hne (fun s hs => (hknown s hs).1) (fun s hs => (hknown s hs).2)

end

/-! ## A number that is moved -/

/-- `2: mov edi, 60` (if `loaded`), `1: mov rax, rdi` and `0: syscall`; without `2` the number is an argument. -/
def movedNumber (loaded : Bool) : UseDefGraph Nat where
  getRegDefList
    | 1 => [(0, some (.physicalRegister 7 8))]
    | 2 => [(7, some (.constant 60))]
    | _ => []
  getRegRef
    | 0, 0 => [1]
    | 1, 7 => if loaded then [2] else []
    | _, _ => []
  getRegUse _ _ := []

theorem follows_movedNumber {s : Nat} {reg : Int} (h : Follows (movedNumber true) 0 0 s reg) :
    s = 0 ∧ reg = 0 ∨ s = 1 ∧ reg = 7 := by
  induction h with
  | refl => exact .inl ⟨rfl, rfl⟩
  | move _ hs hdef ih =>
    rcases ih with ⟨rfl, rfl⟩ | ⟨rfl, rfl⟩
    · cases List.mem_singleton.1 hs
      cases hdef
      exact .inr ⟨rfl, rfl⟩
    · cases List.mem_singleton.1 hs
      cases hdef

theorem numbers_sound_sample : EndsInConstants (movedNumber true) {60} 0 0 := by
  have h : numbers (movedNumber true) 3 0 0 = some (some {60}) := by decide +kernel
  refine (numbers_sound h).2 (fun s reg₁ hfollows s' hs' => ?_) fun s reg₁ hbehind => ?_
  · rcases follows_movedNumber hfollows with ⟨rfl, rfl⟩ | ⟨rfl, rfl⟩ <;> cases List.mem_singleton.1 hs' <;> rfl
  · rcases follows_movedNumber hbehind.follows with ⟨rfl, rfl⟩ | ⟨rfl, rfl⟩
    · refine ⟨by decide, fun s hs => ?_⟩
      cases List.mem_singleton.1 hs
      exact ⟨_, rfl, .inr ⟨7, 8, rfl⟩⟩
    · refine ⟨by decide, fun s hs => ?_⟩
      cases List.mem_singleton.1 hs
      exact ⟨_, rfl, .inl ⟨60, rfl⟩⟩

/-- The number that is the argument of the function is reported as a known one, out of no values. -/
theorem argument_reported_known :
    numbers (movedNumber false) 3 0 0 = some (some ∅) ∧ ∀ values, ¬ EndsInConstants (movedNumber false) values 0 0 := by
  refine ⟨by decide +kernel, fun values h => ?_⟩
  have hbehind : Follows (movedNumber false) 0 0 1 7 := .move .refl (List.mem_singleton.2 rfl) rfl
  exact (h.follows hbehind).traceable.1 rfl

end Egalito.FindSyscalls
