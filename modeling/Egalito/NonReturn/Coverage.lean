import Egalito.NonReturn.Pass
import Egalito.Lib.Run
/-!
# Calls to functions found late

A function that is classified is not visited again. Its calls to a function that
is found later stay unmarked, and so do its calls to itself.
-/

open Egalito.Lib

namespace Egalito.NonReturn

/-- The instructions with a link to `g` are marked. -/
def MarkedTo (function : Function) (g : Nat) : Prop :=
  ∀ b ∈ function.blocks, ∀ cfi, .controlFlow cfi ∈ b.instructions → cfi.target = .function g → cfi.nonreturn = true

/-- In the functions of the list, every instruction with a link to a classified function is marked. -/
def AllMarked (functionList : List Nat) (s : State) : Prop :=
  ∀ f ∈ functionList, ∀ g, (s.functions g).nonreturn = true → MarkedTo (s.functions f) g

/-- The same for the functions that are classified themselves. -/
def ClassifiedMarked (functionList : List Nat) (s : State) : Prop :=
  ∀ f ∈ functionList, (s.functions f).nonreturn = true → ∀ g, (s.functions g).nonreturn = true →
    MarkedTo (s.functions f) g

/-- When a visit is about to find `g`, no function that is classified has an unmarked link to it, nor has `g`
itself after step 1. -/
def FindsInTime (arg0NonZero : Function → Nat → Nat → Bool) (functionList : List Nat) (s : State) (g : Nat) : Prop :=
  let marked := markCalls arg0NonZero s (s.functions g)
  (s.functions g).returns = true → neverReturns (s.set g marked) marked = some true →
    MarkedTo marked g ∧ ∀ f ∈ functionList, (s.functions f).nonreturn = true → MarkedTo (s.functions f) g

section Visit

variable {arg0NonZero : Function → Nat → Nat → Bool} {functionList : List Nat} {s s' : State} {f g : Nat}

/-- Where an instruction of a marked function comes from. -/
theorem controlFlow_of_mark {p : Nat → Nat → ControlFlowInstruction → Bool} {function : Function} {b' : Block}
    {cfi' : ControlFlowInstruction} (hb' : b' ∈ (function.mark p).blocks) (hcfi' : .controlFlow cfi' ∈ b'.instructions) :
    ∃ n i, ∃ b ∈ function.blocks, ∃ cfi, .controlFlow cfi ∈ b.instructions ∧
      cfi' = if p n i cfi then cfi.setNonreturn else cfi := by
  obtain ⟨n, hn⟩ := List.mem_iff_getElem?.1 hb'
  rw [Function.getElem?_mark, Option.map_eq_some_iff] at hn
  obtain ⟨b, hb, rfl⟩ := hn
  rw [Block.instructions_mark] at hcfi'
  obtain ⟨i, hi, hinstr⟩ := List.mem_mapIdx.1 hcfi'
  have hmem := List.getElem_mem hi
  cases hinstr' : b.instructions[i] with
  | controlFlow cfi =>
    rw [hinstr'] at hinstr hmem
    exact ⟨n, i, b, List.mem_of_getElem? hb, cfi, hmem, (Instruction.controlFlow.inj hinstr).symm⟩
  | _ => rw [hinstr'] at hinstr; simp [Instruction.mark] at hinstr

theorem MarkedTo.mark {function : Function} (h : MarkedTo function g) (p : Nat → Nat → ControlFlowInstruction → Bool) :
    MarkedTo (function.mark p) g := by
  intro b' hb' cfi' hcfi' htarget
  obtain ⟨n, i, b, hb, cfi, hcfi, rfl⟩ := controlFlow_of_mark hb' hcfi'
  by_cases hp : p n i cfi = true
  · rw [if_pos hp]
    rfl
  · rw [if_neg hp] at htarget ⊢
    exact h b hb cfi hcfi htarget

/-- Step 1 marks the links to what is known. -/
theorem markedTo_markCalls (hg : hasLinkToNeverReturn s (.function g) = true) (function : Function) :
    MarkedTo (markCalls arg0NonZero s function) g := by
  refine MarkedTo.mark (fun b' hb' cfi' hcfi' htarget => ?_) _
  obtain ⟨n, i, b, hb, cfi, hcfi, rfl⟩ := controlFlow_of_mark hb' hcfi'
  by_cases hp : hasLinkToNeverReturn s cfi.target = true
  · rw [if_pos hp]
    rfl
  · rw [if_neg hp] at htarget
    rw [htarget] at hp
    exact absurd hg hp

theorem hasLink_of_nonreturn (hg : (s.functions g).nonreturn = true) : hasLinkToNeverReturn s (.function g) = true := by
  simp [hasLinkToNeverReturn, Function.returns, hg]

variable (arg0NonZero) in
/-- What was classified stays marked exactly when the visit finds a function in time. -/
theorem classifiedMarked_visit (hf : f ∈ functionList) (h : visit arg0NonZero s f = some s') :
    ClassifiedMarked functionList s' ↔ ClassifiedMarked functionList s ∧ FindsInTime arg0NonZero functionList s f := by
  cases hr : (s.functions f).nonreturn with
  | true =>
    obtain rfl : s = s' := by simpa [visit, Function.returns, hr] using h
    exact ⟨fun hm => ⟨hm, fun hc => by simp [Function.returns, hr] at hc⟩, fun hm => hm.1⟩
  | false =>
    have hreturns : (s.functions f).returns = true := by simp [Function.returns, hr]
    set marked := markCalls arg0NonZero s (s.functions f) with hmarked
    obtain ⟨r, hnever, -⟩ := neverReturns_spec (s.set f marked) marked
    simp only [visit, hreturns, if_true, State.set_same, ← hmarked, hnever, Option.bind_eq_bind, Option.bind_some] at h
    cases r with
    | false =>
      -- the flags are the same, and a classified function is another one
      obtain rfl := Option.some.inj h
      have hflag : ∀ g, ((s.set f marked).functions g).nonreturn = (s.functions g).nonreturn := by
        intro g
        by_cases hg : g = f
        · rw [hg, State.set_same]
          rfl
        · rw [State.set_ne s hg]
      have hother : ∀ g, (s.functions g).nonreturn = true → (s.set f marked).functions g = s.functions g := fun g hg =>
        State.set_ne s (fun hc => by rw [hc, hr] at hg; cases hg) _
      have hsame : ClassifiedMarked functionList (s.set f marked) ↔ ClassifiedMarked functionList s := by
        refine forall₂_congr fun k _ => ?_
        rw [hflag]
        refine forall_congr' fun hk => forall_congr' fun g => ?_
        rw [hflag, hother k hk]
      rw [hsame]
      refine ⟨fun hm => ⟨hm, fun _ hc => ?_⟩, fun hm => hm.1⟩
      rw [hnever] at hc
      cases hc
    | true =>
      have hself : s'.functions f = { marked with nonreturn := true } := by
        rw [← Option.some.inj h]
        exact State.set_same _ _ _
      have hother : ∀ g, g ≠ f → s'.functions g = s.functions g := fun g hg => by
        rw [← Option.some.inj h]
        exact (State.set_ne _ hg _).trans (State.set_ne s hg _)
      have hold : ∀ g, (s.functions g).nonreturn = true → g ≠ f := fun g hg hc => by
        rw [hc, hr] at hg
        cases hg
      have hflag : ∀ g, (s'.functions g).nonreturn = true ↔ g = f ∨ (s.functions g).nonreturn = true := by
        intro g
        by_cases hg : g = f
        · simp [hg, hself]
        · simp [hg, hother g hg]
      constructor
      · intro hm
        refine ⟨fun k hk hkn g hg => ?_, fun _ _ => ⟨?_, fun k hk hkn => ?_⟩⟩
        · have hkg := hm k hk ((hflag k).2 (.inr hkn)) g ((hflag g).2 (.inr hg))
          rwa [hother k (hold k hkn)] at hkg
        · have hff := hm f hf ((hflag f).2 (.inl rfl)) f ((hflag f).2 (.inl rfl))
          rwa [hself] at hff
        · have hkf := hm k hk ((hflag k).2 (.inr hkn)) f ((hflag f).2 (.inl rfl))
          rwa [hother k (hold k hkn)] at hkf
      · rintro ⟨hm, htime⟩ k hk hkn g hg
        obtain ⟨hown, hothers⟩ := htime hreturns hnever
        rw [hflag] at hg hkn
        by_cases hkf : k = f
        · rw [hkf, hself]
          refine hg.elim (fun hgf => hgf ▸ hown) fun hg => ?_
          exact markedTo_markCalls (hasLink_of_nonreturn hg) (s.functions f)
        · rw [hother k hkf]
          have hkn := hkn.resolve_left hkf
          exact hg.elim (fun hgf => hgf ▸ hothers k hk hkn) fun hg => hm k hk hkn g hg

end Visit

/-! ## Runs -/

section Runs

variable {arg0NonZero : Function → Nat → Nat → Bool} {functionList : List Nat} {s₀ s s' : State}

/-- The loop is a number of rounds. -/
theorem visitList_rounds {fuel : Nat} (h : visitList arg0NonZero functionList fuel s = some s') :
    ∃ rounds, (List.replicate rounds functionList).flatten.foldlM (visit arg0NonZero) s = some s' := by
  induction fuel generalizing s with
  | zero => cases h
  | succ fuel ih =>
    obtain ⟨s₁, hrun, -⟩ := foldlM_round arg0NonZero functionList s
    simp only [visitList, hrun, Option.bind_eq_bind, Option.bind_some] at h
    split at h
    · cases h
      exact ⟨1, by simpa using hrun⟩
    · obtain ⟨rounds, hrounds⟩ := ih h
      refine ⟨rounds + 1, ?_⟩
      rw [List.replicate_succ, List.flatten_cons, List.foldlM_append, hrun]
      exact hrounds

/-- After a round, a function that may return has marks for what was classified before. -/
theorem Round.markedTo {l : List Nat} (h : Round arg0NonZero s l s') {f g : Nat} (hf : f ∈ l)
    (hfn : (s'.functions f).nonreturn = false) (hg : (s.functions g).nonreturn = true) : MarkedTo (s'.functions f) g := by
  induction h with
  | nil => cases hf
  | @cons s s₁ s' k l hv hr ih =>
    by_cases hfl : f ∈ l
    · exact ih hfl hfn (hv.nonreturn g hg)
    · obtain rfl : f = k := (List.mem_cons.1 hf).resolve_right hfl
      rw [hr.frame hfl] at hfn ⊢
      cases hv with
      | skipped hn => rw [hn] at hfn; cases hfn
      | kept _ _ =>
        rw [State.set_same]
        exact markedTo_markCalls (hasLink_of_nonreturn hg) _
      | found _ _ _ => rw [State.insert, State.set_same] at hfn; cases hfn

/-- When the pass ends, only classified functions can have links without a mark. -/
theorem allMarked_iff {fuel : Nat} (hempty : s.nonReturnList = []) (h : visitList arg0NonZero functionList fuel s = some s') :
    AllMarked functionList s' ↔ ClassifiedMarked functionList s' := by
  refine ⟨fun hm f hf _ => hm f hf, fun hm f hf g hg => ?_⟩
  cases hfn : (s'.functions f).nonreturn with
  | true => exact hm f hf hfn g hg
  | false =>
    obtain ⟨-, -, t, ht, hround, hlen⟩ := visitList_spec (tracks_refl hempty) h (fun _ => True)
      (fun _ _ _ _ _ _ _ => trivial) trivial
    rcases hround.list ht with ⟨-, hsame⟩ | hlt
    · rw [hsame] at hg
      exact hround.markedTo hf hfn hg
    · omega

end Runs

/-- The pass ends. All links to classified functions are marked then, if and only if those between functions that
were classified before it are, and every visit that finds a function does so in time. -/
theorem marked_everywhere_iff (arg0NonZero : Function → Nat → Nat → Bool) (functionList : List Nat) (s : State)
    (hempty : s.nonReturnList = []) :
    ∃ fuel s' rounds, visitList arg0NonZero functionList fuel s = some s' ∧
      (List.replicate rounds functionList).flatten.foldlM (visit arg0NonZero) s = some s' ∧
      (AllMarked functionList s' ↔ ClassifiedMarked functionList s ∧
        Along (visit arg0NonZero) (FindsInTime arg0NonZero functionList) s (List.replicate rounds functionList).flatten) := by
  obtain ⟨s', hrun⟩ : ∃ s', visitList arg0NonZero functionList (functionList.length + 1) s = some s' :=
    visitList_total (tracks_refl hempty) (by simp [hempty]) (by simp [hempty])
  obtain ⟨rounds, hrounds⟩ := visitList_rounds hrun
  refine ⟨functionList.length + 1, s', rounds, hrun, hrounds, ?_⟩
  rw [allMarked_iff hempty hrun]
  refine foldlM_iff_along (ClassifiedMarked functionList) (fun f hf s s' hstep => ?_) hrounds
  obtain ⟨l, hl, hfl⟩ := List.mem_flatten.1 hf
  rw [(List.mem_replicate.1 hl).2] at hfl
  exact classifiedMarked_visit arg0NonZero hfl hstep

theorem callProgram_marked_everywhere : ∃ fuel s' rounds, visitList noArg0 [0, 1] fuel callProgram = some s' ∧
    (List.replicate rounds [0, 1]).flatten.foldlM (visit noArg0) callProgram = some s' ∧
    (AllMarked [0, 1] s' ↔ ClassifiedMarked [0, 1] callProgram ∧
      Along (visit noArg0) (FindsInTime noArg0 [0, 1]) callProgram (List.replicate rounds [0, 1]).flatten) :=
  marked_everywhere_iff noArg0 [0, 1] callProgram rfl

/-- `fail` calls `abort` through the PLT, and behind that call `die`, which is found after it. -/
def lateProgram : State where
  functions
    | 0 => ⟨["fail"], false, [.single (.controlFlow ⟨.callq, .plt (some "abort"), false⟩),
        .single (.controlFlow ⟨.callq, .function 1, false⟩)]⟩
    | 1 => ⟨["die"], false, [.single (.controlFlow ⟨.callq, .plt (some "abort"), false⟩)]⟩
    | _ => ⟨[], false, []⟩
  nonReturnList := []

/-- The pass ends with `die` classified and the call to it unmarked. -/
theorem lateProgram_unmarked : ∃ s', visitList noArg0 [0, 1] 3 lateProgram = some s' ∧ ¬ AllMarked [0, 1] s' := by
  have hrun : (visitList noArg0 [0, 1] 3 lateProgram).map (fun s' => ((s'.functions 1).nonreturn,
      (s'.functions 0).blocks.map Block.instructions)) =
      some (true, [[.controlFlow ⟨.callq, .plt (some "abort"), true⟩], [.controlFlow ⟨.callq, .function 1, false⟩]]) := by
    decide +kernel
  obtain ⟨s', hrun, heq⟩ := Option.map_eq_some_iff.1 hrun
  obtain ⟨hdie, hblocks⟩ := Prod.mk.inj heq
  refine ⟨s', hrun, fun hm => ?_⟩
  have hmem : [.controlFlow ⟨.callq, .function 1, false⟩] ∈ (s'.functions 0).blocks.map Block.instructions := by
    rw [hblocks]
    simp
  obtain ⟨b, hb, hinstr⟩ := List.mem_map.1 hmem
  have hmark := hm 0 (by simp) 1 hdie b hb ⟨.callq, .function 1, false⟩ (by rw [hinstr]; simp) rfl
  cases hmark

end Egalito.NonReturn
