import Egalito.NonReturn.Pass
/-!
# The order of the function list

Without `error()` calls, whether a function is found depends on the functions found
before and on nothing else. The functions found in the end are then the least set
that this rule closes, for any order of the list.
-/

open Egalito.Lib

namespace Egalito.NonReturn

/-! ## Marks that say what is known -/

section Known

variable {s : State} {f : Function}

/-- The marked instructions of the function have targets that never return for `s`. -/
def MarksKnown (s : State) (f : Function) (p : Nat → Nat → ControlFlowInstruction → Bool) : Prop :=
  ∀ n b, f.blocks[n]? = some b → ∀ i cfi, .controlFlow cfi ∈ b.instructions → p n i cfi = true →
    hasLinkToNeverReturn s cfi.target = true

theorem scan_mark_known {l l' : List Instruction}
    (h : List.Forall₂ (fun i i' => ∃ p, i' = i.mark p ∧ ∀ cfi, i = .controlFlow cfi → p cfi = true →
      hasLinkToNeverReturn s cfi.target = true) l l') : scan s l' = scan s l := by
  induction h with
  | nil => rfl
  | @cons i i' l l' hi hl ih =>
    obtain ⟨p, rfl, hp⟩ := hi
    cases i with
    | controlFlow cfi =>
      simp only [Instruction.mark]
      have hback : comesBack s (if p cfi then cfi.setNonreturn else cfi) = comesBack s cfi := by
        split
        · next hc => simp [comesBack, ControlFlowInstruction.setNonreturn, hp cfi rfl hc]
        · rfl
      by_cases hb : cfi.breaks
      · rw [scan_breaks hb, scan_breaks (breaks_mark.2 hb), hback]
      · rw [scan_cons hb, scan_cons (mt breaks_mark.1 hb), hback, ih]
    | _ => exact ih

theorem scan_block_mark {p : Nat → Nat → ControlFlowInstruction → Bool} (hp : MarksKnown s f p) {n : Nat} {b : Block}
    (hb : f.blocks[n]? = some b) : scan s (b.mark (p n)).instructions = scan s b.instructions := by
  apply scan_mark_known
  rw [Block.instructions_mark, List.forall₂_iff_get]
  refine ⟨by simp, fun i h h' => ?_⟩
  simp only [List.get_eq_getElem, List.getElem_mapIdx]
  refine ⟨p n i, rfl, fun cfi hcfi hc => hp n b hb i cfi ?_ hc⟩
  rw [← hcfi]
  exact List.getElem_mem h

theorem stops_mark {p : Nat → Nat → ControlFlowInstruction → Bool} (hp : MarksKnown s f p) {n : Nat}
    (h : Stops s (f.mark p) n) : Stops s f n := by
  obtain ⟨b', hb', hscan⟩ := h
  rw [Function.getElem?_mark, Option.map_eq_some_iff] at hb'
  obtain ⟨b, hb, rfl⟩ := hb'
  exact ⟨b, hb, (scan_block_mark hp hb).symm.trans hscan⟩

/-- Such marks tell the search nothing new. -/
theorem wayOut_mark {p : Nat → Nat → ControlFlowInstruction → Bool} (hp : MarksKnown s f p) (n : Nat) :
    WayOut s (f.mark p) n ↔ WayOut s f n := by
  refine ⟨fun h => h.mono (fun _ ht => ht) p, fun h => ?_⟩
  refine Escapes.imp (W := fun _ => True) trivial (fun _ _ _ _ => trivial) ?_ ?_ ?_ h
  · intro n _ hs
    exact stops_mark hp hs
  · intro n m _ hns hm
    unfold Linked at hm ⊢
    rwa [forwardLinks_mark p fun hs => hns (stops_mark hp hs)]
  · intro n _ hns hl
    rcases hl with hl | ⟨b, hb, hscan⟩
    · exact .inl ((forwardLinks_mark p fun hs => hns (stops_mark hp hs)).trans hl)
    · exact .inr ⟨b.mark (p n), by rw [Function.getElem?_mark, hb]; rfl, (scan_block_mark hp hb).trans hscan⟩

end Known

/-! ## The rule -/

open Classical in
/-- The first state with these functions marked. -/
noncomputable def State.withFound (s₀ : State) (t : Set Nat) : State where
  functions f := { s₀.functions f with nonreturn := decide (f ∈ t) }
  nonReturnList := []

/-- A function is found when it has no way out, given those found before. -/
def Rule (s₀ : State) (f : Nat) (t : Set Nat) : Prop :=
  (s₀.functions f).blocks ≠ [] ∧ ¬ WayOut (s₀.withFound t) (s₀.functions f) 0

/-- The functions that are marked. -/
def State.found (s : State) : Set Nat := {f | (s.functions f).nonreturn = true}

variable {arg0NonZero : Function → Nat → Nat → Bool} {s₀ s s' : State} {f : Nat}

theorem State.mem_found {g : Nat} : g ∈ s.found ↔ (s.functions g).nonreturn = true := Iff.rfl

open Classical in
theorem State.withFound_nonreturn {t : Set Nat} {g : Nat} : ((s₀.withFound t).functions g).nonreturn = true ↔ g ∈ t :=
  decide_eq_true_iff

theorem rule_mono (s₀ : State) (f : Nat) (t u : Set Nat) (htu : t ⊆ u) (h : Rule s₀ f t) : Rule s₀ f u := by
  have hknows : Knows (s₀.withFound t) (s₀.withFound u) :=
    knows_of (fun _ => rfl) (fun g hg => State.withFound_nonreturn.2 (htu (State.withFound_nonreturn.1 hg))) (List.Subset.refl _)
  exact ⟨h.1, fun hw => h.2 (hw.of_knows hknows)⟩

/-- What a state in a run knows is what it has marked. -/
theorem hasLink_withFound (ht : Tracks s₀ s) (t : Target) :
    hasLinkToNeverReturn (s₀.withFound s.found) t = hasLinkToNeverReturn s t := by
  cases t with
  | function g =>
    have hname : ((s₀.withFound s.found).functions g).hasName = (s.functions g).hasName := by
      funext name
      rw [Function.hasName, Function.hasName, ht.names]
      rfl
    have hmark : ((s₀.withFound s.found).functions g).nonreturn = (s.functions g).nonreturn := by
      rw [Bool.eq_iff_iff]
      exact State.withFound_nonreturn
    have hin : s.inList g = true → (s.functions g).nonreturn = true := by
      intro h
      exact ht.listed g (List.contains_iff_mem.1 h)
    simp only [hasLinkToNeverReturn, Function.returns, hmark, hname]
    have hempty : (s₀.withFound s.found).inList g = false := rfl
    rw [hempty]
    cases hn : (s.functions g).nonreturn with
    | true => rfl
    | false =>
      have hout : s.inList g = false := Bool.eq_false_iff.2 fun h => by rw [hin h] at hn; cases hn
      rw [hout]
  | plt symbol => cases symbol <;> rfl
  | _ => rfl

/-- No function of the list calls `error()`. -/
def NoErrorCalls (s : State) (functionList : List Nat) : Prop :=
  ∀ f ∈ functionList, ∀ b ∈ (s.functions f).blocks, ∀ cfi, .controlFlow cfi ∈ b.instructions →
    hasLinkToGNUError s cfi.target = false

/-- The marks that a run has made do not change the answer of the search. -/
theorem wayOut_tracked {functionList : List Nat} (hno : NoErrorCalls s₀ functionList) (hf : f ∈ functionList)
    (ht : Tracks s₀ s) {function : Function}
    (h : ∃ p, function.blocks = ((s₀.functions f).mark p).blocks ∧ ∀ b i cfi, p b i cfi = true →
      hasLinkToNeverReturn s cfi.target = true ∨ hasLinkToGNUError s₀ cfi.target = true) :
    WayOut s function 0 ↔ WayOut (s₀.withFound s.found) (s₀.functions f) 0 := by
  obtain ⟨p, hp, hpm⟩ := h
  have hknown : MarksKnown s (s₀.functions f) p := by
    intro n b hb i cfi hcfi hc
    refine (hpm n i cfi hc).resolve_right fun herror => ?_
    rw [hno f hf b (List.mem_of_getElem? hb) cfi hcfi] at herror
    cases herror
  rw [wayOut_congr hp, wayOut_mark hknown]
  exact ⟨fun h => h.of_knows fun t hl => (hasLink_withFound ht t).symm.trans hl,
    fun h => h.of_knows fun t hl => (hasLink_withFound ht t).trans hl⟩

/-- A visit follows the rule. -/
theorem Visited.grown {functionList : List Nat} (hno : NoErrorCalls s₀ functionList) (hf : f ∈ functionList)
    (ht : Tracks s₀ s) (h : Visited arg0NonZero s f s') :
    Grown (Rule s₀) {g | g ∈ functionList} s.found s'.found := by
  have hframe : ∀ g, g ≠ f → (g ∈ s'.found ↔ g ∈ s.found) := by
    intro g hg
    rw [State.mem_found, State.mem_found, h.frame hg]
  have htracked := wayOut_tracked hno hf ht (ht.markCalls arg0NonZero f)
  cases h with
  | skipped _ => exact .base
  | kept hr _ =>
    have hsame : (s.set f (markCalls arg0NonZero s (s.functions f))).found = s.found := by
      ext g
      by_cases hg : g = f
      · subst hg
        rw [State.mem_found, State.mem_found, State.set_same]
        rfl
      · exact hframe g hg
    rw [hsame]
    exact .base
  | found hr hb hw =>
    have hinsert : ((s.set f { markCalls arg0NonZero s (s.functions f) with nonreturn := true }).insert f).found =
        insert f s.found := by
      ext g
      rw [Set.mem_insert_iff]
      by_cases hg : g = f
      · subst hg
        refine iff_of_true ?_ (.inl rfl)
        rw [State.mem_found, State.insert, State.set_same]
      · rw [hframe g hg]
        exact (or_iff_right hg).symm
    rw [hinsert]
    refine .insert .base hf ⟨?_, fun hc => hw (htracked.2 hc)⟩
    intro hc
    obtain ⟨p, hp, -⟩ := ht.marks f
    exact hb (by rw [hp]; simp [Function.mark, hc])

/-! ## The functions found -/

/-- What the pass finds is closed under the rule and has grown by it. -/
theorem visitList_found {functionList : List Nat} {fuel : Nat} (hno : NoErrorCalls s₀ functionList)
    (hempty : s₀.nonReturnList = []) (h : visitList arg0NonZero functionList fuel s₀ = some s') :
    Grown (Rule s₀) {g | g ∈ functionList} s₀.found s'.found ∧ Closed (Rule s₀) {g | g ∈ functionList} s'.found := by
  obtain ⟨-, hgrown, -⟩ := visitList_spec (tracks_refl hempty) h
    (fun t => Grown (Rule s₀) {g | g ∈ functionList} s₀.found t.found)
    (fun _ _ _ hf ht hg hv => hg.trans (hv.grown hno hf ht)) .base
  refine ⟨hgrown, fun f hf hrule => ?_⟩
  obtain ⟨htracks, hiff⟩ := visitList_wayOut hempty h
  by_cases hf₀ : (s₀.functions f).nonreturn = true
  · exact htracks.keeps f hf₀
  · refine (hiff f hf (Bool.eq_false_iff.2 hf₀)).2 ⟨?_, ?_⟩
    · obtain ⟨p, hp, -⟩ := htracks.marks f
      rw [hp]
      intro hc
      exact hrule.1 (by simpa [Function.mark] using hc)
    · rw [wayOut_tracked hno hf htracks (htracks.marks f)]
      exact hrule.2

/-- The list holds what the pass itself has marked. -/
theorem visitList_listed {functionList : List Nat} {fuel : Nat} (hempty : s₀.nonReturnList = [])
    (h : visitList arg0NonZero functionList fuel s₀ = some s') (g : Nat) :
    g ∈ s'.nonReturnList ↔ (s'.functions g).nonreturn = true ∧ (s₀.functions g).nonreturn = false := by
  refine (visitList_spec (tracks_refl hempty) h (fun s => g ∈ s.nonReturnList ↔
    (s.functions g).nonreturn = true ∧ (s₀.functions g).nonreturn = false) ?_ ?_).2.1
  · intro s f s' _ ht hiff hv
    rcases hv.list ht with ⟨heq, hf⟩ | ⟨heq, hnot, hf, hf'⟩
    · rw [heq, hiff]
      by_cases hgf : g = f
      · rw [hgf, hf]
      · rw [hv.frame hgf]
    · rw [heq, List.mem_cons]
      by_cases hgf : g = f
      · subst hgf
        refine iff_of_true (.inl rfl) ⟨hf, Bool.eq_false_iff.2 fun hc => ?_⟩
        rw [ht.keeps g hc] at hf'
        cases hf'
      · rw [hv.frame hgf, or_iff_right hgf, hiff]
  · rw [hempty]
    simp

/-- The pass ends for every order of the function list, and it always finds the same functions. -/
theorem same_for_every_order (arg0NonZero : Function → Nat → Nat → Bool) (s : State) (functionList functionList' : List Nat)
    (hempty : s.nonReturnList = []) (hno : NoErrorCalls s functionList) (hperm : functionList.Perm functionList') :
    ∃ fuel t t', visitList arg0NonZero functionList fuel s = some t ∧ visitList arg0NonZero functionList' fuel s = some t' ∧
      ∀ f, (t.functions f).nonreturn = (t'.functions f).nonreturn ∧ (f ∈ t.nonReturnList ↔ f ∈ t'.nonReturnList) := by
  obtain ⟨t, ht⟩ : ∃ t, visitList arg0NonZero functionList (functionList.length + 1) s = some t :=
    visitList_total (tracks_refl hempty) (by simp [hempty]) (by simp [hempty])
  obtain ⟨t', ht'⟩ : ∃ t', visitList arg0NonZero functionList' (functionList.length + 1) s = some t' :=
    visitList_total (tracks_refl hempty) (by simp [hempty]) (by simp [hempty, hperm.length_eq])
  have hno' : NoErrorCalls s functionList' := fun f hf => hno f (hperm.mem_iff.2 hf)
  have hsame : {g | g ∈ functionList'} = {g | g ∈ functionList} := Set.ext fun g => hperm.mem_iff.symm
  obtain ⟨hgrown, hclosed⟩ := visitList_found hno hempty ht
  obtain ⟨hgrown', hclosed'⟩ := visitList_found hno' hempty ht'
  rw [hsame] at hgrown' hclosed'
  have hfound := hgrown.unique (rule_mono s) hgrown' hclosed hclosed'
  have hmark : ∀ f, (t.functions f).nonreturn = (t'.functions f).nonreturn := by
    intro f
    rw [Bool.eq_iff_iff, ← State.mem_found, ← State.mem_found, hfound]
  refine ⟨functionList.length + 1, t, t', ht, ht', fun f => ⟨hmark f, ?_⟩⟩
  rw [visitList_listed hempty ht, visitList_listed hempty ht', hmark]

theorem same_for_both_orders : NoErrorCalls callProgram [0, 1] ∧
    ∃ fuel t t', visitList noArg0 [0, 1] fuel callProgram = some t ∧
      visitList noArg0 [1, 0] fuel callProgram = some t' ∧
      ∀ f, (t.functions f).nonreturn = (t'.functions f).nonreturn ∧ (f ∈ t.nonReturnList ↔ f ∈ t'.nonReturnList) := by
  have hno : NoErrorCalls callProgram [0, 1] := by
    intro f hf b hb cfi hcfi
    simp only [List.mem_cons, List.not_mem_nil, or_false] at hf
    rcases hf with rfl | rfl <;> simp only [callProgram, Block.single, List.mem_cons, List.not_mem_nil, or_false] at hb <;>
      rcases hb with rfl | rfl <;> simp [Block.instructions] at hcfi <;> rw [hcfi] <;> decide
  exact ⟨hno, same_for_every_order _ callProgram [0, 1] [1, 0] rfl hno (List.Perm.swap 1 0 [])⟩

end Egalito.NonReturn
