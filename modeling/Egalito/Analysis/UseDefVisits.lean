import Egalito.Analysis.UseDef
import Egalito.Lib.Propagation
/-!
# What the visits of the use-def analysis do

One spec for each function of the analysis: a transition joins the sets of the
other preceding nodes, an instruction adds references to what is in the set when
it uses a register, and a visit does both for the instructions of a block. The
definitions in the exposed sets then travel as `Egalito.Lib.Propagates` says.
-/

open Egalito.Lib

namespace Egalito.Analysis.UseDef

variable {ρ : Type}

/-! ## Accesses of one instruction -/

/-- The register is used, and not defined before. -/
def UsedFirst (accesses : List (Access ρ)) (reg : ρ) : Prop :=
  ∃ before after, accesses = before ++ .use reg :: after ∧ .define reg ∉ before

/-- The register is used after it has been defined. -/
def UsedLate (accesses : List (Access ρ)) (reg : ρ) : Prop :=
  ∃ before after, accesses = before ++ .use reg :: after ∧ .define reg ∈ before

theorem used_iff {accesses : List (Access ρ)} {reg : ρ} :
    .use reg ∈ accesses ↔ UsedFirst accesses reg ∨ UsedLate accesses reg := by
  constructor
  · intro h
    obtain ⟨before, after, rfl⟩ := List.append_of_mem h
    by_cases hdef : .define reg ∈ before
    · exact Or.inr ⟨before, after, rfl, hdef⟩
    · exact Or.inl ⟨before, after, rfl, hdef⟩
  · rintro (⟨before, after, rfl, -⟩ | ⟨before, after, rfl, -⟩) <;> simp

section Cons

variable {accesses : List (Access ρ)} {reg r : ρ}

/-- A use in a list is its head or in its tail. -/
theorem exists_cons_iff {a : Access ρ} {P : List (Access ρ) → Prop} :
    (∃ before after, a :: accesses = before ++ .use reg :: after ∧ P before) ↔
      (a = .use reg ∧ P []) ∨ ∃ before after, accesses = before ++ .use reg :: after ∧ P (a :: before) := by
  constructor
  · rintro ⟨before, after, heq, hP⟩
    cases before with
    | nil =>
      cases heq
      exact Or.inl ⟨rfl, hP⟩
    | cons b before =>
      cases heq
      exact Or.inr ⟨before, after, rfl, hP⟩
  · rintro (⟨rfl, hP⟩ | ⟨before, after, rfl, hP⟩)
    · exact ⟨[], accesses, rfl, hP⟩
    · exact ⟨a :: before, after, rfl, hP⟩

@[simp] theorem not_usedFirst_nil : ¬ UsedFirst [] reg := by simp [UsedFirst]

@[simp] theorem not_usedLate_nil : ¬ UsedLate [] reg := by simp [UsedLate]

theorem usedFirst_use : UsedFirst (.use r :: accesses) reg ↔ r = reg ∨ UsedFirst accesses reg := by
  unfold UsedFirst
  rw [exists_cons_iff (P := fun before => .define reg ∉ before)]
  simp

theorem usedFirst_define : UsedFirst (.define r :: accesses) reg ↔ r ≠ reg ∧ UsedFirst accesses reg := by
  unfold UsedFirst
  rw [exists_cons_iff (P := fun before => .define reg ∉ before)]
  by_cases h : r = reg
  · simp [h]
  · simp [h, Ne.symm h]

theorem usedLate_use : UsedLate (.use r :: accesses) reg ↔ UsedLate accesses reg := by
  unfold UsedLate
  rw [exists_cons_iff (P := fun before => .define reg ∈ before)]
  simp

theorem usedLate_define :
    UsedLate (.define r :: accesses) reg ↔ r = reg ∧ .use reg ∈ accesses ∨ UsedLate accesses reg := by
  unfold UsedLate
  rw [exists_cons_iff (P := fun before => .define reg ∈ before)]
  by_cases h : r = reg
  · simp only [h, reduceCtorEq, false_and, false_or, List.mem_cons, true_or, and_true, true_and]
    constructor
    · rintro ⟨before, after, rfl⟩
      simp
    · rintro (h | ⟨before, after, rfl, -⟩)
      · exact List.append_of_mem h
      · exact ⟨before, after, rfl⟩
  · simp [h, Ne.symm h]

end Cons

/-! ## The lists -/

theorem mem_addState {list : List UDState} {origin d : UDState} : d ∈ addState list origin ↔ d ∈ list ∨ d = origin := by
  unfold addState
  split
  case isTrue h => exact ⟨Or.inl, fun hd => hd.elim id fun he => he ▸ h⟩
  case isFalse => simp

theorem mem_foldl_addState {origins list : List UDState} {d : UDState} :
    d ∈ origins.foldl addState list ↔ d ∈ list ∨ d ∈ origins := by
  induction origins generalizing list with
  | nil => simp
  | cons o origins ih => rw [List.foldl_cons, ih, mem_addState, List.mem_cons, or_assoc]

theorem RefList.mem_add [DecidableEq ρ] {list : RefList ρ} {r reg : ρ} {origin d : UDState} :
    d ∈ list.add r origin reg ↔ d ∈ list reg ∨ r = reg ∧ d = origin := by
  unfold RefList.add
  by_cases h : reg = r
  · subst h
    simp [mem_addState]
  · rw [Function.update_of_ne h]
    simp [Ne.symm h]

namespace WorkingSet

variable {w : WorkingSet ρ}

@[simp] theorem getRegSet_setRegSet {list : RefList ρ} : (w.setRegSet list).getRegSet = list := by
  simp [setRegSet, getRegSet]

theorem exposed_setRegSet {list : RefList ρ} {m : Nat} (h : m ≠ w.regSet) :
    (w.setRegSet list).nodeExposedRegSetList m = w.nodeExposedRegSetList m := Function.update_of_ne h _ _

/-- What the building of a set leaves alone. -/
structure Builds (w w' : WorkingSet ρ) : Prop where
  regSet : w'.regSet = w.regSet
  trackPartial : w'.trackPartialUDChains = w.trackPartialUDChains
  exposed : ∀ m, m ≠ w.regSet → w'.nodeExposedRegSetList m = w.nodeExposedRegSetList m

theorem Builds.refl : w.Builds w := ⟨rfl, rfl, fun _ _ => rfl⟩

theorem Builds.trans {w' w'' : WorkingSet ρ} (h : w.Builds w') (h' : w'.Builds w'') : w.Builds w'' :=
  ⟨h'.regSet.trans h.regSet, h'.trackPartial.trans h.trackPartial,
    fun m hm => (h'.exposed m (h.regSet.symm ▸ hm)).trans (h.exposed m hm)⟩

theorem builds_setRegSet {list : RefList ρ} : w.Builds (w.setRegSet list) := ⟨rfl, rfl, fun _ => exposed_setRegSet⟩

/-! ## The transition to a node -/

theorem foldl_addExposed [DecidableEq ρ] (links : List Nat) : w.Builds (links.foldl addExposed w) ∧
    (links.foldl addExposed w).regRefList = w.regRefList ∧ (links.foldl addExposed w).regUseList = w.regUseList ∧
    ∀ reg d, d ∈ (links.foldl addExposed w).getRegSet reg ↔
      d ∈ w.getRegSet reg ∨ ∃ p ∈ links, p ≠ w.regSet ∧ d ∈ w.nodeExposedRegSetList p reg := by
  induction links generalizing w with
  | nil => simp [Builds.refl]
  | cons p links ih =>
    obtain ⟨hbuilds, hrefs, huses, hset⟩ := ih (w := w.addExposed p)
    refine ⟨builds_setRegSet.trans hbuilds, hrefs, huses, fun reg d => ?_⟩
    have hself : (w.addExposed p).regSet = w.regSet := rfl
    have hmem : d ∈ (w.addExposed p).getRegSet reg ↔ d ∈ w.getRegSet reg ∨ d ∈ w.nodeExposedRegSetList p reg := by
      unfold addExposed
      rw [getRegSet_setRegSet, mem_foldl_addState]
    have hlinks : (∃ q ∈ links, q ≠ w.regSet ∧ d ∈ (w.addExposed p).nodeExposedRegSetList q reg) ↔
        ∃ q ∈ links, q ≠ w.regSet ∧ d ∈ w.nodeExposedRegSetList q reg :=
      exists_congr fun q => and_congr_right fun _ => and_congr_right fun hq => by
        rw [show (w.addExposed p).nodeExposedRegSetList q = w.nodeExposedRegSetList q from exposed_setRegSet hq]
    rw [List.foldl_cons, hset, hmem, hself, hlinks, or_assoc]
    refine or_congr_right' fun hnot => ?_
    simp only [List.mem_cons, exists_eq_or_imp]
    by_cases hp : p = w.regSet
    · -- the set of the node itself has nothing to add
      rw [show w.nodeExposedRegSetList p reg = w.getRegSet reg by rw [hp]; rfl]
      simp [hnot, hp]
    · simp [hp]

theorem transitionTo_spec [DecidableEq ρ] (f : Function ρ) (node : Nat) :
    ({ w with regSet := node } : WorkingSet ρ).Builds (w.transitionTo f node) ∧
    (w.transitionTo f node).regRefList = w.regRefList ∧ (w.transitionTo f node).regUseList = w.regUseList ∧
    ∀ reg d, d ∈ (w.transitionTo f node).getRegSet reg ↔
      ∃ p, node ∈ f.cfg.links 1 p ∧ p ≠ node ∧ d ∈ w.nodeExposedRegSetList p reg := by
  obtain ⟨hbuilds, hrefs, huses, hset⟩ :=
    foldl_addExposed (w := ({ w with regSet := node } : WorkingSet ρ).setRegSet .empty)
      (f.cfg.links (-1) node)
  refine ⟨builds_setRegSet.trans hbuilds, hrefs, huses, fun reg d => ?_⟩
  unfold transitionTo
  rw [hset, getRegSet_setRegSet]
  simp only [RefList.empty, List.not_mem_nil, false_or, f.reverseLinks]
  refine exists_congr fun p => and_congr_right fun _ => and_congr_right fun hp => ?_
  exact Iff.of_eq (congrArg (fun list : RefList ρ => d ∈ list reg) (Function.update_of_ne hp _ _))

/-! ## The instructions of a node -/

/-- What one instruction does with the set and with the references. -/
structure Fills (w : WorkingSet ρ) (state : UDState) (accesses : List (Access ρ)) (w' : WorkingSet ρ) : Prop where
  builds : w.Builds w'
  set : ∀ reg d, d ∈ w'.getRegSet reg ↔
    .define reg ∈ accesses ∧ d = state ∨ .define reg ∉ accesses ∧ d ∈ w.getRegSet reg
  refs : ∀ u reg d, d ∈ w'.regRefList u reg ↔ d ∈ w.regRefList u reg ∨
    u = state ∧ (UsedFirst accesses reg ∧ d ∈ w.getRegSet reg ∨ UsedLate accesses reg ∧ d = state)

section

variable [DecidableEq ρ] {state : UDState} {r : ρ}

theorem foldl_addRegRef (origins : List UDState) :
    (origins.foldl (addRegRef state r) w).nodeExposedRegSetList = w.nodeExposedRegSetList ∧
    (origins.foldl (addRegRef state r) w).regSet = w.regSet ∧
    (origins.foldl (addRegRef state r) w).trackPartialUDChains = w.trackPartialUDChains ∧
    ∀ u reg d, d ∈ (origins.foldl (addRegRef state r) w).regRefList u reg ↔
      d ∈ w.regRefList u reg ∨ u = state ∧ r = reg ∧ d ∈ origins := by
  induction origins generalizing w with
  | nil => simp
  | cons o origins ih =>
    obtain ⟨hexposed, hreg, huntracked, hrefs⟩ := ih (w := addRegRef state r w o)
    refine ⟨hexposed, hreg, huntracked, fun u reg d => ?_⟩
    have hadd : d ∈ (addRegRef state r w o).regRefList u reg ↔
        d ∈ w.regRefList u reg ∨ u = state ∧ r = reg ∧ d = o := by
      unfold addRegRef
      by_cases hu : u = state
      · subst hu
        simp [RefList.mem_add]
      · simp [hu]
    rw [List.foldl_cons, hrefs, hadd, List.mem_cons]
    tauto

theorem fills_use (huntracked : w.trackPartialUDChains = false) {accesses : List (Access ρ)} {w' : WorkingSet ρ}
    (h : (w.useReg state r).Fills state accesses w') : w.Fills state (.use r :: accesses) w' := by
  have huse : w.useReg state r = (w.getRegSet r).foldl (addRegRef state r) w := by simp [useReg, huntracked]
  obtain ⟨hexposed, hreg, huntracked', hrefs⟩ := foldl_addRegRef (w := w) (r := r) (w.getRegSet r)
  rw [← huse] at hexposed hreg huntracked' hrefs
  have hset : (w.useReg state r).getRegSet = w.getRegSet := by rw [getRegSet, hexposed, hreg, getRegSet]
  have hbuilds : w.Builds (w.useReg state r) := ⟨hreg, huntracked', fun m _ => by rw [hexposed]⟩
  refine ⟨hbuilds.trans h.builds, fun reg d => ?_, fun u reg d => ?_⟩
  · rw [h.set, hset]
    simp
  · rw [h.refs, hset, hrefs, usedFirst_use, usedLate_use]
    by_cases hr : r = reg
    · subst hr
      tauto
    · simp [hr]

theorem fills_define {accesses : List (Access ρ)} {w' : WorkingSet ρ}
    (h : (w.defReg state r).Fills state accesses w') : w.Fills state (.define r :: accesses) w' := by
  have hset : ∀ reg d, d ∈ (w.defReg state r).getRegSet reg ↔ r = reg ∧ d = state ∨ r ≠ reg ∧ d ∈ w.getRegSet reg := by
    intro reg d
    unfold defReg
    rw [getRegSet_setRegSet]
    by_cases hr : r = reg
    · simp [RefList.set, hr]
    · simp [RefList.set, hr, Ne.symm hr]
  refine ⟨builds_setRegSet.trans h.builds, fun reg d => ?_, fun u reg d => ?_⟩
  · rw [h.set, hset]
    by_cases hr : r = reg
    · subst hr
      simp only [List.mem_cons, true_or, true_and, ne_eq, not_true_eq_false, false_and, or_false]
      tauto
    · simp [hr, Ne.symm hr]
  · rw [h.refs, hset, usedFirst_define, usedLate_define, used_iff]
    by_cases hr : r = reg
    · subst hr
      simp only [true_and, ne_eq, not_true_eq_false, false_and, or_false, false_or]
      change d ∈ w.regRefList u r ∨ _ ↔ _
      tauto
    · simp only [hr, false_and, false_or, ne_eq, not_false_eq_true, true_and]
      rfl

/-- `fillState`. -/
theorem fills_foldl (huntracked : w.trackPartialUDChains = false) (state : UDState) (accesses : List (Access ρ)) :
    w.Fills state accesses (accesses.foldl (access state) w) := by
  induction accesses generalizing w with
  | nil => exact ⟨.refl, by simp, by simp⟩
  | cons a accesses ih =>
    cases a with
    | use r =>
      refine fills_use huntracked (ih ?_)
      unfold useReg
      rw [huntracked, Bool.and_false, if_neg (by simp)]
      exact (foldl_addRegRef _).2.2.1.trans huntracked
    | define r => exact fills_define (ih huntracked)

end

/-- The two lists of references agree. -/
def Agrees (w : WorkingSet ρ) : Prop := ∀ s d reg, s ∈ w.regUseList d reg ↔ d ∈ w.regRefList s reg

section

variable [DecidableEq ρ] {state : UDState} {r : ρ}

theorem Agrees.addRegRef (h : w.Agrees) (o : UDState) : (addRegRef state r w o).Agrees := by
  intro s d reg
  have hrefs : d ∈ (WorkingSet.addRegRef state r w o).regRefList s reg ↔
      d ∈ w.regRefList s reg ∨ s = state ∧ r = reg ∧ d = o := by
    unfold WorkingSet.addRegRef
    by_cases hs : s = state
    · subst hs
      simp [RefList.mem_add]
    · simp [hs]
  have huses : s ∈ (WorkingSet.addRegRef state r w o).regUseList d reg ↔
      s ∈ w.regUseList d reg ∨ d = o ∧ r = reg ∧ s = state := by
    unfold WorkingSet.addRegRef
    by_cases hd : d = o
    · subst hd
      simp [RefList.mem_add]
    · simp [hd]
  rw [hrefs, huses, h]
  tauto

theorem Agrees.access (h : w.Agrees) (a : Access ρ) : (access state w a).Agrees := by
  cases a with
  | use reg =>
    change (w.useReg state reg).Agrees
    unfold useReg
    split
    · exact h
    · exact List.foldlRecOn _ _ h fun w h o _ => h.addRegRef o
  | define reg => exact h

end

end WorkingSet

/-! ## The visit of a node -/

namespace Function

open WorkingSet

variable (f : Function ρ)

/-- Of the first instructions of a node, `d` is the last one that defines the register. -/
structure LastDefinition (node bound : Nat) (reg : ρ) (d : UDState) : Prop where
  here : d.node = node
  lt : d.index < bound
  defines : f.Defines d reg
  last : ∀ i, d.index < i → i < bound → ¬ f.Defines ⟨node, i⟩ reg

/-- None of the first instructions of a node defines the register. -/
def Clear (node bound : Nat) (reg : ρ) : Prop := ∀ i < bound, ¬ f.Defines ⟨node, i⟩ reg

/-- The references that an instruction gets when its node is entered with definition `d` or not. -/
def Records (u : UDState) (reg : ρ) (d : UDState) (enters : Prop) : Prop :=
  UsedFirst (f.accesses u) reg ∧
      (f.LastDefinition u.node u.index reg d ∨ f.Clear u.node u.index reg ∧ enters) ∨
    UsedLate (f.accesses u) reg ∧ d = u

variable {f} {node bound : Nat} {reg : ρ} {d : UDState}

theorem lastDefinition_succ : f.LastDefinition node (bound + 1) reg d ↔
    f.Defines ⟨node, bound⟩ reg ∧ d = ⟨node, bound⟩ ∨
      ¬ f.Defines ⟨node, bound⟩ reg ∧ f.LastDefinition node bound reg d := by
  constructor
  · intro h
    rcases Nat.lt_succ_iff_lt_or_eq.1 h.lt with hlt | heq
    · exact Or.inr ⟨h.last bound hlt (Nat.lt_succ_self _), h.here, hlt, h.defines, fun i hi hib => h.last i hi (by omega)⟩
    · obtain rfl : d = ⟨node, bound⟩ := by rw [← h.here, ← heq]
      exact Or.inl ⟨h.defines, rfl⟩
  · rintro (⟨hdef, rfl⟩ | ⟨hnot, h⟩)
    · exact ⟨rfl, Nat.lt_succ_self _, hdef, fun i hi hib => absurd hi (by simp only; omega)⟩
    · refine ⟨h.here, h.lt.trans (Nat.lt_succ_self _), h.defines, fun i hi hib => ?_⟩
      rcases Nat.lt_succ_iff_lt_or_eq.1 hib with hlt | rfl
      · exact h.last i hi hlt
      · exact hnot

theorem clear_succ : f.Clear node (bound + 1) reg ↔ ¬ f.Defines ⟨node, bound⟩ reg ∧ f.Clear node bound reg := by
  unfold Clear
  rw [Nat.forall_lt_succ_right, and_comm]

variable [DecidableEq ρ] {w : WorkingSet ρ}

/-- After the first instructions of a node. -/
theorem foldl_fillState (huntracked : w.trackPartialUDChains = false) (node bound : Nat) :
    ∃ w', (List.range bound).foldl (fun w index => f.fillState w ⟨node, index⟩) w = w' ∧ w.Builds w' ∧
      (∀ reg d, d ∈ w'.getRegSet reg ↔
        f.LastDefinition node bound reg d ∨ f.Clear node bound reg ∧ d ∈ w.getRegSet reg) ∧
      ∀ u reg d, d ∈ w'.regRefList u reg ↔ d ∈ w.regRefList u reg ∨
        u.node = node ∧ u.index < bound ∧ f.Records u reg d (d ∈ w.getRegSet reg) := by
  induction bound with
  | zero =>
    refine ⟨w, rfl, .refl, fun reg d => ?_, fun u reg d => by simp⟩
    have hnone : ¬ f.LastDefinition node 0 reg d := fun h => absurd h.lt (Nat.not_lt_zero _)
    simp [hnone, Clear]
  | succ bound ih =>
    obtain ⟨w', hfold, hbuilds, hset, hrefs⟩ := ih
    have hfills := fills_foldl (hbuilds.trackPartial.trans huntracked) ⟨node, bound⟩ (f.accesses ⟨node, bound⟩)
    refine ⟨_, rfl, ?_⟩
    rw [List.range_succ, List.foldl_append, hfold, List.foldl_cons, List.foldl_nil]
    change w.Builds (List.foldl _ w' _) ∧ _
    refine ⟨hbuilds.trans hfills.builds, fun reg d => ?_, fun u reg d => ?_⟩
    · change d ∈ (List.foldl _ w' _).getRegSet reg ↔ _
      rw [hfills.set, hset, lastDefinition_succ, clear_succ]
      change f.Defines ⟨node, bound⟩ reg ∧ _ ∨ ¬ f.Defines ⟨node, bound⟩ reg ∧ _ ↔ _
      tauto
    · change d ∈ (List.foldl _ w' _).regRefList u reg ↔ _
      rw [hfills.refs, hrefs, or_assoc]
      refine or_congr_right ?_
      by_cases hu : u = ⟨node, bound⟩
      · subst hu
        simp only [true_and, lt_self_iff_false, false_and, false_or, Nat.lt_succ_self]
        rw [hset]
        rfl
      · have hlt : u.node = node → (u.index < bound + 1 ↔ u.index < bound) := fun hnode => by
          have hne : u.index ≠ bound := fun he => hu (by cases u; simp_all)
          omega
        simp only [hu, false_and, or_false]
        exact and_congr_right fun hnode => by rw [hlt hnode]

/-- One visit. -/
theorem analyzeNode_spec (huntracked : w.trackPartialUDChains = false) (node : Nat) :
    (f.analyzeNode w node).trackPartialUDChains = false ∧
    (∀ m, m ≠ node → (f.analyzeNode w node).nodeExposedRegSetList m = w.nodeExposedRegSetList m) ∧
    (∀ reg d, d ∈ (f.analyzeNode w node).nodeExposedRegSetList node reg ↔
      f.LastDefinition node (f.block node).length reg d ∨ f.Clear node (f.block node).length reg ∧
        ∃ p, node ∈ f.cfg.links 1 p ∧ p ≠ node ∧ d ∈ w.nodeExposedRegSetList p reg) ∧
    ∀ u reg d, d ∈ (f.analyzeNode w node).regRefList u reg ↔ d ∈ w.regRefList u reg ∨
      u.node = node ∧ u.index < (f.block node).length ∧
        f.Records u reg d (∃ p, node ∈ f.cfg.links 1 p ∧ p ≠ node ∧ d ∈ w.nodeExposedRegSetList p reg) := by
  obtain ⟨hbuilds, hrefs, -, hset⟩ := transitionTo_spec (w := w) f node
  obtain ⟨w', hfold, hbuilds', hset', hrefs'⟩ := foldl_fillState (f := f) (hbuilds.trackPartial.trans huntracked) node
    (f.block node).length
  have hw' : f.analyzeNode w node = w' := hfold
  have hall := hbuilds.trans hbuilds'
  rw [hw']
  refine ⟨hall.trackPartial.trans huntracked, hall.exposed, fun reg d => ?_, fun u reg d => ?_⟩
  · have hat : w'.getRegSet = w'.nodeExposedRegSetList node := by
      unfold getRegSet
      rw [hall.regSet]
    rw [← hat, hset', hset]
  · rw [hrefs', hrefs]
    simp only [hset]

theorem agrees_analyzeNode (h : w.Agrees) (node : Nat) : (f.analyzeNode w node).Agrees := by
  obtain ⟨-, hrefs, huses, -⟩ := transitionTo_spec (w := w) f node
  have hstart : (w.transitionTo f node).Agrees := by
    unfold Agrees
    rw [hrefs, huses]
    exact h
  unfold analyzeNode fillState
  exact List.foldlRecOn _ _ hstart fun w h i _ => List.foldlRecOn _ _ h fun w h a _ => h.access a

end Function

end Egalito.Analysis.UseDef
