import Egalito.NonReturn.Marks
/-!
# Runs of the pass

What one visit can do, what a state in a run has to do with the first one, and that
the pass ends: a round after which it goes on has found another function.
-/

open Egalito.Lib

namespace Egalito.NonReturn

/-! ## What the search knows -/

section Knows

variable {s s' : State} {f g : Function}

/-- Every target that never returns for `s` does not for `s'`. -/
def Knows (s s' : State) : Prop := ∀ t, hasLinkToNeverReturn s t → hasLinkToNeverReturn s' t

theorem knows_of (hnames : ∀ f, (s'.functions f).names = (s.functions f).names)
    (hmarks : ∀ f, (s.functions f).nonreturn → (s'.functions f).nonreturn)
    (hlist : s.nonReturnList ⊆ s'.nonReturnList) : Knows s s' := by
  intro t h
  cases t with
  | function f =>
    have hname : (s'.functions f).hasName = (s.functions f).hasName := by
      funext name
      rw [Function.hasName, Function.hasName, hnames]
    simp only [hasLinkToNeverReturn, Function.returns, State.inList, Bool.not_not, Bool.or_eq_true,
      List.contains_iff_mem, hname] at h ⊢
    rcases h with (h | h) | h
    · exact .inl (.inl (hmarks f h))
    · exact .inl (.inr (hlist h))
    · exact .inr h
  | plt symbol => cases symbol <;> exact h
  | _ => exact h

theorem Function.mark_false (f : Function) : (f.mark fun _ _ _ => false) = f := by
  have hi : ∀ i : Instruction, i.mark (fun _ => false) = i := by
    intro i
    cases i <;> rfl
  have hb : ∀ b : Block, b.mark (fun _ _ => false) = b := by
    intro b
    obtain ⟨init, last, h⟩ := b
    simp only [Block.mark, hi, List.mapIdx_eq_zipIdx_map]
    congr 1
    simp
  simp only [Function.mark, hb, List.mapIdx_eq_zipIdx_map]
  simp

theorem WayOut.of_knows (h : Knows s s') {n : Nat} (hw : WayOut s' f n) : WayOut s f n := by
  rw [← Function.mark_false f] at hw
  exact hw.mono h _

/-- The search looks at the blocks only. -/
theorem wayOut_congr (h : f.blocks = g.blocks) (s : State) (n : Nat) : WayOut s f n ↔ WayOut s g n := by
  obtain ⟨names, nonreturn, blocks⟩ := f
  obtain ⟨names', nonreturn', blocks'⟩ := g
  cases h
  rfl

end Knows

/-! ## One visit -/

section Visit

variable (arg0NonZero : Function → Nat → Nat → Bool)

/-- The states that a visit can leave. -/
inductive Visited (s : State) (f : Nat) : State → Prop
  | skipped : (s.functions f).nonreturn = true → Visited s f s
  | kept : (s.functions f).nonreturn = false →
    ((s.functions f).blocks = [] ∨ WayOut s (markCalls arg0NonZero s (s.functions f)) 0) →
    Visited s f (s.set f (markCalls arg0NonZero s (s.functions f)))
  | found : (s.functions f).nonreturn = false → (s.functions f).blocks ≠ [] →
    ¬ WayOut s (markCalls arg0NonZero s (s.functions f)) 0 →
    Visited s f ((s.set f { markCalls arg0NonZero s (s.functions f) with nonreturn := true }).insert f)

variable {arg0NonZero}

theorem State.set_same (s : State) (f : Nat) (function : Function) : (s.set f function).functions f = function :=
  Function.update_self _ _ _

theorem State.set_ne (s : State) {f g : Nat} (h : g ≠ f) (function : Function) :
    (s.set f function).functions g = s.functions g :=
  Function.update_of_ne h _ _

theorem State.set_set (s : State) (f : Nat) (function function' : Function) :
    (s.set f function).set f function' = s.set f function' := by
  simp [State.set]

theorem markCalls_blocks_nil {s : State} {f : Function} :
    (markCalls arg0NonZero s f).blocks = [] ↔ f.blocks = [] := by
  simp [markCalls, Function.mark, ← List.length_eq_zero_iff]

/-- Marks in a function tell the search nothing about others. -/
theorem knows_set_mark {s : State} {f : Nat} :
    Knows s (s.set f (markCalls arg0NonZero s (s.functions f))) ∧
      Knows (s.set f (markCalls arg0NonZero s (s.functions f))) s := by
  have h : ∀ g, ((s.set f (markCalls arg0NonZero s (s.functions f))).functions g).names = (s.functions g).names ∧
      ((s.set f (markCalls arg0NonZero s (s.functions f))).functions g).nonreturn = (s.functions g).nonreturn := by
    intro g
    by_cases hg : g = f
    · subst hg
      rw [State.set_same]
      exact ⟨rfl, rfl⟩
    · rw [State.set_ne s hg]
      exact ⟨rfl, rfl⟩
  exact ⟨knows_of (fun g => (h g).1) (fun g hn => (h g).2.trans hn) (List.Subset.refl _),
    knows_of (fun g => (h g).1.symm) (fun g hn => (h g).2.symm.trans hn) (List.Subset.refl _)⟩

variable (arg0NonZero) in
theorem visit_visited (s : State) (f : Nat) : ∃ s', visit arg0NonZero s f = some s' ∧ Visited arg0NonZero s f s' := by
  cases hr : (s.functions f).nonreturn with
  | true => exact ⟨s, by simp [visit, Function.returns, hr], .skipped hr⟩
  | false =>
    obtain ⟨r, hnever, hiff⟩ := neverReturns_spec (s.set f (markCalls arg0NonZero s (s.functions f)))
      (markCalls arg0NonZero s (s.functions f))
    have hway : WayOut (s.set f (markCalls arg0NonZero s (s.functions f))) (markCalls arg0NonZero s (s.functions f)) 0 ↔
        WayOut s (markCalls arg0NonZero s (s.functions f)) 0 :=
      ⟨fun h => h.of_knows knows_set_mark.1, fun h => h.of_knows knows_set_mark.2⟩
    rw [hway, Ne, markCalls_blocks_nil] at hiff
    cases r with
    | false =>
      refine ⟨_, ?_, .kept hr ?_⟩
      · simp [visit, Function.returns, hr, State.set_same, hnever]
      · by_contra hnot
        push Not at hnot
        exact Bool.false_ne_true (hiff.2 hnot)
    | true =>
      refine ⟨_, ?_, .found hr (hiff.1 rfl).1 (hiff.1 rfl).2⟩
      simp [visit, Function.returns, hr, State.set_same, hnever, State.set_set]

end Visit

/-! ## States of a run -/

section Run

variable {arg0NonZero : Function → Nat → Nat → Bool} {s₀ s s' : State} {f : Nat}

/-- A state in a run that began with `s₀`: nothing but marks has been added. A marked
instruction has a target that never returns, or is an `error()` call. -/
structure Tracks (s₀ s : State) : Prop where
  names : ∀ f, (s.functions f).names = (s₀.functions f).names
  keeps : ∀ f, (s₀.functions f).nonreturn = true → (s.functions f).nonreturn = true
  listed : ∀ f ∈ s.nonReturnList, (s.functions f).nonreturn = true
  nodup : s.nonReturnList.Nodup
  marks : ∀ f, ∃ p, (s.functions f).blocks = ((s₀.functions f).mark p).blocks ∧ ∀ b i cfi, p b i cfi = true →
    hasLinkToNeverReturn s cfi.target = true ∨ hasLinkToGNUError s₀ cfi.target = true

theorem tracks_refl (h : s₀.nonReturnList = []) : Tracks s₀ s₀ where
  names _ := rfl
  keeps _ hn := hn
  listed f hf := by rw [h] at hf; cases hf
  nodup := by rw [h]; exact List.nodup_nil
  marks f := ⟨fun _ _ _ => false, by rw [Function.mark_false], fun _ _ _ hp => by cases hp⟩

theorem hasLinkToGNUError_congr (hnames : ∀ f, (s.functions f).names = (s₀.functions f).names) (t : Target) :
    hasLinkToGNUError s t = hasLinkToGNUError s₀ t := by
  cases t with
  | function f => simp only [hasLinkToGNUError, Function.hasName, hnames]
  | plt symbol => cases symbol <;> rfl
  | _ => rfl

theorem Function.mark_mark (p q : Nat → Nat → ControlFlowInstruction → Bool) (f : Function) :
    (f.mark p).mark q = f.mark fun b i cfi => p b i cfi || q b i (if p b i cfi then cfi.setNonreturn else cfi) := by
  have hi : ∀ (p q : ControlFlowInstruction → Bool) (i : Instruction), (i.mark p).mark q =
      i.mark fun cfi => p cfi || q (if p cfi then cfi.setNonreturn else cfi) := by
    intro p q i
    cases i with
    | controlFlow cfi =>
      simp only [Instruction.mark]
      by_cases hp : p cfi = true
      · simp [hp, ControlFlowInstruction.setNonreturn]
      · simp [hp]
    | _ => rfl
  simp only [Function.mark, List.mapIdx_mapIdx, Block.mark, List.length_mapIdx, Function.comp_def, hi]

variable (arg0NonZero) in
/-- What both loops of step 1 mark. -/
theorem markCalls_eq (s : State) (f : Function) : ∃ p, markCalls arg0NonZero s f = f.mark p ∧ ∀ b i cfi, p b i cfi = true →
    hasLinkToNeverReturn s cfi.target = true ∨ hasLinkToGNUError s cfi.target = true := by
  refine ⟨_, Function.mark_mark _ _ f, fun b i cfi h => ?_⟩
  simp only [Bool.or_eq_true, Bool.and_eq_true] at h
  refine h.imp_right fun hq => ?_
  have hg := hq.1.2
  split at hg <;> exact hg

variable (arg0NonZero) in
/-- The marks after step 1 are marks on the first state. -/
theorem Tracks.markCalls (ht : Tracks s₀ s) (f : Nat) :
    ∃ p, (markCalls arg0NonZero s (s.functions f)).blocks = ((s₀.functions f).mark p).blocks ∧ ∀ b i cfi, p b i cfi = true →
      hasLinkToNeverReturn s cfi.target = true ∨ hasLinkToGNUError s₀ cfi.target = true := by
  obtain ⟨p, hp, hpm⟩ := ht.marks f
  obtain ⟨q, hq, hqm⟩ := markCalls_eq arg0NonZero s (s.functions f)
  have hblocks : ((s.functions f).mark q).blocks = (((s₀.functions f).mark p).mark q).blocks := by
    simp only [Function.mark] at hp ⊢
    rw [hp]
  rw [Function.mark_mark] at hblocks
  refine ⟨_, (congrArg Function.blocks hq).trans hblocks, fun b i cfi hc => ?_⟩
  rcases Bool.or_eq_true_iff.1 hc with hc | hc
  · exact hpm b i cfi hc
  · have hlink := hqm _ _ _ hc
    rw [hasLinkToGNUError_congr ht.names] at hlink
    split at hlink <;> exact hlink

/-- A visit adds one function at most, and only to those known. -/
theorem Visited.knows (h : Visited arg0NonZero s f s') : Knows s s' := by
  cases h with
  | skipped _ => exact fun _ ht => ht
  | kept _ _ => exact knows_set_mark.1
  | found _ _ _ =>
    refine knows_of (fun g => ?_) (fun g hg => ?_) ?_
    · by_cases hgf : g = f
      · subst hgf
        rw [State.insert, State.set_same]
        rfl
      · rw [State.insert, State.set_ne s hgf]
    · by_cases hgf : g = f
      · subst hgf
        rw [State.insert, State.set_same]
      · rw [State.insert, State.set_ne s hgf]
        exact hg
    · intro g hg
      simp only [State.insert]
      split
      · exact hg
      · exact List.mem_cons_of_mem _ hg

/-- Only the function visited changes. -/
theorem Visited.frame (h : Visited arg0NonZero s f s') {g : Nat} (hg : g ≠ f) : s'.functions g = s.functions g := by
  cases h with
  | skipped _ => rfl
  | kept _ _ => exact State.set_ne s hg _
  | found _ _ _ => exact State.set_ne s hg _

/-- The list gets longer exactly when a function is found. -/
theorem Visited.list (ht : Tracks s₀ s) (h : Visited arg0NonZero s f s') :
    (s'.nonReturnList = s.nonReturnList ∧ (s'.functions f).nonreturn = (s.functions f).nonreturn) ∨
      (s'.nonReturnList = f :: s.nonReturnList ∧ f ∉ s.nonReturnList ∧
        (s'.functions f).nonreturn = true ∧ (s.functions f).nonreturn = false) := by
  cases h with
  | skipped _ => exact .inl ⟨rfl, rfl⟩
  | kept _ _ => exact .inl ⟨rfl, by rw [State.set_same]; rfl⟩
  | found hr _ _ =>
    have hnot : f ∉ s.nonReturnList := fun hf => by rw [ht.listed f hf] at hr; cases hr
    refine .inr ⟨?_, hnot, by rw [State.insert, State.set_same], hr⟩
    rw [State.insert, if_neg]
    · rfl
    · simpa [State.inList, State.set] using hnot

theorem Visited.nonreturn (h : Visited arg0NonZero s f s') (g : Nat) (hg : (s.functions g).nonreturn = true) :
    (s'.functions g).nonreturn = true := by
  by_cases hgf : g = f
  · subst hgf
    cases h with
    | skipped _ => exact hg
    | kept hr _ => rw [hg] at hr; cases hr
    | found hr _ _ => rw [hg] at hr; cases hr
  · rw [h.frame hgf]
    exact hg

/-- The blocks of the function visited. -/
theorem Visited.blocks (h : Visited arg0NonZero s f s') : (s'.functions f).blocks = (s.functions f).blocks ∨
    (s'.functions f).blocks = (markCalls arg0NonZero s (s.functions f)).blocks := by
  cases h with
  | skipped _ => exact .inl rfl
  | kept _ _ => exact .inr (by rw [State.set_same])
  | found _ _ _ => exact .inr (by rw [State.insert, State.set_same])

theorem Visited.names (h : Visited arg0NonZero s f s') (g : Nat) : (s'.functions g).names = (s.functions g).names := by
  by_cases hgf : g = f
  · subst hgf
    cases h with
    | skipped _ => rfl
    | kept _ _ => rw [State.set_same]; rfl
    | found _ _ _ => rw [State.insert, State.set_same]; rfl
  · rw [h.frame hgf]

theorem Visited.tracks (ht : Tracks s₀ s) (h : Visited arg0NonZero s f s') : Tracks s₀ s' := by
  have hlist := h.list ht
  refine ⟨fun g => (h.names g).trans (ht.names g), fun g hg => h.nonreturn g (ht.keeps g hg), fun g hg => ?_, ?_, fun g => ?_⟩
  · rcases hlist with ⟨heq, -⟩ | ⟨heq, -, hf, -⟩
    · rw [heq] at hg
      exact h.nonreturn g (ht.listed g hg)
    · rw [heq] at hg
      rcases List.mem_cons.1 hg with rfl | hg
      · exact hf
      · exact h.nonreturn g (ht.listed g hg)
  · rcases hlist with ⟨heq, -⟩ | ⟨heq, hnot, -⟩
    · rw [heq]
      exact ht.nodup
    · rw [heq]
      exact List.nodup_cons.2 ⟨hnot, ht.nodup⟩
  · have hmore : (∃ p, (s'.functions g).blocks = ((s₀.functions g).mark p).blocks ∧ ∀ b i cfi, p b i cfi = true →
        hasLinkToNeverReturn s cfi.target = true ∨ hasLinkToGNUError s₀ cfi.target = true) := by
      by_cases hgf : g = f
      · subst hgf
        rcases h.blocks with heq | heq
        · rw [heq]
          exact ht.marks g
        · rw [heq]
          exact ht.markCalls arg0NonZero g
      · rw [h.frame hgf]
        exact ht.marks g
    obtain ⟨p, hp, hpm⟩ := hmore
    exact ⟨p, hp, fun b i cfi hc => (hpm b i cfi hc).imp_left (h.knows _)⟩

/-! ## Rounds -/

/-- The visits of a round, one after the other. -/
inductive Round (arg0NonZero : Function → Nat → Nat → Bool) : State → List Nat → State → Prop
  | nil {s : State} : Round arg0NonZero s [] s
  | cons {s s₁ s' : State} {f : Nat} {l : List Nat} :
    Visited arg0NonZero s f s₁ → Round arg0NonZero s₁ l s' → Round arg0NonZero s (f :: l) s'

variable (arg0NonZero) in
theorem foldlM_round (l : List Nat) (s : State) :
    ∃ s', l.foldlM (visit arg0NonZero) s = some s' ∧ Round arg0NonZero s l s' := by
  induction l generalizing s with
  | nil => exact ⟨s, rfl, .nil⟩
  | cons f l ih =>
    obtain ⟨s₁, hv, hs₁⟩ := visit_visited arg0NonZero s f
    obtain ⟨s', hr, hs'⟩ := ih s₁
    exact ⟨s', by rw [List.foldlM_cons, hv]; exact hr, .cons hs₁ hs'⟩

variable {l : List Nat}

theorem Round.invariant (Inv : State → Prop) (hInv : ∀ s f s', f ∈ l → Inv s → Visited arg0NonZero s f s' → Inv s')
    (h : Round arg0NonZero s l s') (hs : Inv s) : Inv s' := by
  induction h with
  | nil => exact hs
  | cons hv _ ih =>
    exact ih (fun s f s' hf => hInv s f s' (List.mem_cons_of_mem _ hf)) (hInv _ _ _ List.mem_cons_self hs hv)

theorem Round.tracks (ht : Tracks s₀ s) (h : Round arg0NonZero s l s') : Tracks s₀ s' :=
  h.invariant (Tracks s₀) (fun _ _ _ _ ht hv => hv.tracks ht) ht

theorem Round.knows (h : Round arg0NonZero s l s') : Knows s s' :=
  h.invariant (Knows s) (fun _ _ _ _ hk hv t ht => hv.knows t (hk t ht)) fun _ ht => ht

theorem Round.frame {g : Nat} (h : Round arg0NonZero s l s') (hg : g ∉ l) : s'.functions g = s.functions g := by
  refine h.invariant (fun t => t.functions g = s.functions g) (fun t f t' hf heq hv => ?_) rfl
  rw [hv.frame (fun hc : g = f => hg (hc ▸ hf)), heq]

/-- A round makes the list longer, or finds nothing. -/
theorem Round.list (ht : Tracks s₀ s) (h : Round arg0NonZero s l s') :
    (s'.nonReturnList = s.nonReturnList ∧ ∀ g, (s'.functions g).nonreturn = (s.functions g).nonreturn) ∨
      s.nonReturnList.length < s'.nonReturnList.length := by
  induction h with
  | nil => exact .inl ⟨rfl, fun _ => rfl⟩
  | @cons s s₁ s' f l hv hr ih =>
    rcases hv.list ht with ⟨heq, hf⟩ | ⟨heq, -, -⟩
    · refine (ih (hv.tracks ht)).imp (fun h => ⟨h.1.trans heq, fun g => (h.2 g).trans ?_⟩) fun h => by rwa [heq] at h
      by_cases hg : g = f
      · rw [hg, hf]
      · rw [hv.frame hg]
    · right
      rcases ih (hv.tracks ht) with ⟨heq', -⟩ | hlt
      · rw [heq', heq, List.length_cons]
        exact Nat.lt_succ_self _
      · rw [heq, List.length_cons] at hlt
        omega

/-- After a round that found nothing every function that may return has a way out. -/
theorem Round.wayOut (ht : Tracks s₀ s) (h : Round arg0NonZero s l s')
    (hsame : ∀ g, (s'.functions g).nonreturn = (s.functions g).nonreturn) (hlist : s'.nonReturnList = s.nonReturnList) :
    ∀ f ∈ l, (s'.functions f).nonreturn = false → (s'.functions f).blocks = [] ∨ WayOut s' (s'.functions f) 0 := by
  induction h with
  | nil => intro f hf; cases hf
  | @cons s s₁ s' f l hv hr ih =>
    have ht₁ := hv.tracks ht
    -- neither the visit nor the rest of the round has found a function
    have hquiet : s₁.nonReturnList = s.nonReturnList ∧ ∀ g, (s'.functions g).nonreturn = (s₁.functions g).nonreturn := by
      rcases hr.list ht₁ with ⟨heq, hsame'⟩ | hlt
      · exact ⟨heq.symm.trans hlist, hsame'⟩
      · rcases hv.list ht with ⟨heq, -⟩ | ⟨heq, -, -⟩ <;> rw [heq, hlist] at hlt <;> simp at hlt
    intro g hg hn
    by_cases hgl : g ∈ l
    · exact ih ht₁ hquiet.2 (hlist.trans hquiet.1.symm) g hgl hn
    · have hgf : g = f := (List.mem_cons.1 hg).resolve_right hgl
      subst hgf
      have hback : Knows s' s := by
        have ht' := hr.tracks ht₁
        refine knows_of (fun k => (ht.names k).trans (ht'.names k).symm) (fun k hk => ?_) (by rw [hlist]; exact List.Subset.refl _)
        rw [hsame] at hk
        exact hk
      rw [hr.frame hgl] at hn ⊢
      cases hv with
      | skipped hr' => rw [hr'] at hn; cases hn
      | kept _ hw =>
        rw [State.set_same]
        refine hw.imp (fun hb => markCalls_blocks_nil.2 hb) fun hw => ?_
        exact hw.of_knows hback
      | found _ _ _ =>
        rw [State.insert, State.set_same] at hn
        cases hn

/-! ## The loop -/

/-- An invariant of visits holds when the pass ends, which it does with a round that finds nothing. -/
theorem visitList_spec {functionList : List Nat} {fuel : Nat} (ht : Tracks s₀ s)
    (h : visitList arg0NonZero functionList fuel s = some s') (Inv : State → Prop)
    (hInv : ∀ s f s', f ∈ functionList → Tracks s₀ s → Inv s → Visited arg0NonZero s f s' → Inv s') (hs : Inv s) :
    Tracks s₀ s' ∧ Inv s' ∧
      ∃ t, Tracks s₀ t ∧ Round arg0NonZero t functionList s' ∧ s'.nonReturnList.length = t.nonReturnList.length := by
  induction fuel generalizing s with
  | zero => cases h
  | succ fuel ih =>
    obtain ⟨s₁, hrun, hr⟩ := foldlM_round arg0NonZero functionList s
    obtain ⟨ht₁, hs₁⟩ := hr.invariant (fun t => Tracks s₀ t ∧ Inv t)
      (fun s f s' hf hst hv => ⟨hv.tracks hst.1, hInv s f s' hf hst.1 hst.2 hv⟩) ⟨ht, hs⟩
    simp only [visitList, hrun, Option.bind_eq_bind, Option.bind_some] at h
    split at h
    · next hlen =>
      cases h
      exact ⟨ht₁, hs₁, s, ht, hr, hlen.symm⟩
    · exact ih ht₁ h hs₁

theorem Visited.list_subset {functionList : List Nat} (ht : Tracks s₀ s) (h : Visited arg0NonZero s f s')
    (hf : f ∈ functionList) (hsub : s.nonReturnList ⊆ functionList) : s'.nonReturnList ⊆ functionList := by
  rcases h.list ht with ⟨heq, -⟩ | ⟨heq, -, -⟩
  · rwa [heq]
  · rw [heq]
    exact List.cons_subset.2 ⟨hf, hsub⟩

/-- The pass ends: the list of functions found gets longer with every round but the last. -/
theorem visitList_total {functionList : List Nat} {fuel : Nat} (ht : Tracks s₀ s) (hsub : s.nonReturnList ⊆ functionList)
    (hfuel : functionList.length < fuel + s.nonReturnList.length) :
    ∃ s', visitList arg0NonZero functionList fuel s = some s' := by
  induction fuel generalizing s with
  | zero =>
    have hle := (ht.nodup.subperm hsub).length_le
    omega
  | succ fuel ih =>
    obtain ⟨s₁, hrun, hr⟩ := foldlM_round arg0NonZero functionList s
    simp only [visitList, hrun, Option.bind_eq_bind, Option.bind_some]
    split
    · exact ⟨s₁, rfl⟩
    · next hlen =>
      have hinv := hr.invariant (fun t => Tracks s₀ t ∧ t.nonReturnList ⊆ functionList)
        (fun _ _ _ hf hst hv => ⟨hv.tracks hst.1, hv.list_subset hst.1 hf hst.2⟩) ⟨ht, hsub⟩
      refine ih hinv.1 hinv.2 ?_
      rcases hr.list ht with ⟨heq, -⟩ | hlt
      · rw [heq] at hlen
        exact absurd rfl hlen
      · omega

/-! ## What the pass has classified -/

/-- Every function that the pass has marked has no way out, with what is known now. -/
def Settled (s₀ s : State) : Prop :=
  ∀ f, (s.functions f).nonreturn = true → (s₀.functions f).nonreturn = false →
    (s.functions f).blocks ≠ [] ∧ ¬ WayOut s (s.functions f) 0

theorem Visited.settled (hs : Settled s₀ s) (h : Visited arg0NonZero s f s') : Settled s₀ s' := by
  intro g hg hg₀
  by_cases hgf : g = f
  · subst hgf
    have hk := h.knows
    cases h with
    | skipped _ => exact hs g hg hg₀
    | kept hr _ =>
      rw [State.set_same] at hg
      exact absurd (hg.symm.trans hr) (by simp)
    | found _ hb hw =>
      rw [State.insert, State.set_same] at hg ⊢
      exact ⟨fun hc => hb (markCalls_blocks_nil.1 hc), fun hc => hw (WayOut.of_knows hk hc)⟩
  · rw [h.frame hgf] at hg ⊢
    exact ⟨(hs g hg hg₀).1, fun hc => (hs g hg hg₀).2 (hc.of_knows h.knows)⟩

/-- When the pass ends it has marked exactly the functions without a way out. -/
theorem visitList_wayOut {functionList : List Nat} {fuel : Nat} (hempty : s.nonReturnList = [])
    (h : visitList arg0NonZero functionList fuel s = some s') :
    Tracks s s' ∧ ∀ f ∈ functionList, (s.functions f).nonreturn = false →
      ((s'.functions f).nonreturn = true ↔ (s'.functions f).blocks ≠ [] ∧ ¬ WayOut s' (s'.functions f) 0) := by
  obtain ⟨ht', hset, t, ht, hr, hlen⟩ := visitList_spec (tracks_refl hempty) h (Settled s)
    (fun _ _ _ _ _ hs hv => hv.settled hs) fun f hf hf' => absurd (hf.symm.trans hf') (by simp)
  refine ⟨ht', fun f hf hf₀ => ⟨fun hm => hset f hm hf₀, fun hnw => ?_⟩⟩
  rcases hr.list ht with ⟨hlist, hsame⟩ | hlt
  · by_contra hm
    rcases hr.wayOut ht hsame hlist f hf (Bool.eq_false_iff.2 hm) with hb | hw
    · exact hnw.1 hb
    · exact hnw.2 hw
  · omega

end Run

/-! ## A program -/

/-- A block of one instruction. -/
def Block.single (i : Instruction) : Block := ⟨[], i, by simp⟩

/-- For programs without `error()` calls. -/
def noArg0 : Function → Nat → Nat → Bool := fun _ _ _ => false

/-- `main` calls `die` and returns; `die` calls `abort` through the PLT. -/
def callProgram : State where
  functions
    | 0 => ⟨["main"], false, [.single (.controlFlow ⟨.callq, .function 1, false⟩), .single .return]⟩
    | 1 => ⟨["die"], false, [.single (.controlFlow ⟨.callq, .plt (some "abort"), false⟩), .single .return]⟩
    | _ => ⟨[], false, []⟩
  nonReturnList := []

end Egalito.NonReturn
