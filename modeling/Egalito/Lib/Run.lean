import Mathlib.Tactic
/-!
# Runs of a partial step function

`none` is a step that stops the program. `Along` asks for a condition before
every step of a run, in the state that the run has reached there.
-/

namespace Egalito.Lib

variable {σ α : Type} (step : σ → α → Option σ) (P : σ → α → Prop)

def Along : σ → List α → Prop
  | _, [] => True
  | s, a :: as => P s a ∧ ∀ s', step s a = some s' → Along s' as

variable {step P} (Inv : σ → Prop) {s s' : σ} {as : List α}

theorem along_of_forall (h : ∀ s a, P s a) (s : σ) (as : List α) : Along step P s as := by
  induction as generalizing s with
  | nil => trivial
  | cons a as ih => exact ⟨h s a, fun s' _ => ih s'⟩

theorem along_of_mem (h : ∀ a ∈ as, ∀ s, P s a) (s : σ) : Along step P s as := by
  induction as generalizing s with
  | nil => trivial
  | cons a as ih =>
    exact ⟨h a List.mem_cons_self s, fun s' _ => ih (fun b hb => h b (List.mem_cons_of_mem _ hb)) s'⟩

/-- What every step keeps, a run keeps. -/
theorem foldlM_invariant (hstep : ∀ s a s', Inv s → P s a → step s a = some s' → Inv s')
    (hs : Inv s) (hP : Along step P s as) (hrun : as.foldlM step s = some s') : Inv s' := by
  induction as generalizing s with
  | nil =>
    simp only [List.foldlM_nil, Option.pure_def, Option.some.injEq] at hrun
    exact hrun ▸ hs
  | cons a as ih =>
    obtain ⟨ha, hrest⟩ := hP
    rw [List.foldlM_cons, Option.bind_eq_bind, Option.bind_eq_some_iff] at hrun
    obtain ⟨s₁, h₁, hrun⟩ := hrun
    exact ih (hstep s a s₁ hs ha h₁) (hrest s₁ h₁) hrun

/-- What every step that does not stop shows about its element, holds of all elements of a run that does not stop. -/
theorem forall_of_foldlM {Q : α → Prop} (hstep : ∀ s a s', Inv s → step s a = some s' → Inv s' ∧ Q a)
    (hs : Inv s) (hrun : as.foldlM step s = some s') : ∀ a ∈ as, Q a := by
  induction as generalizing s with
  | nil => exact fun _ h => absurd h List.not_mem_nil
  | cons a as ih =>
    rw [List.foldlM_cons, Option.bind_eq_bind, Option.bind_eq_some_iff] at hrun
    obtain ⟨s₁, h₁, hrun⟩ := hrun
    obtain ⟨hs₁, ha⟩ := hstep s a s₁ hs h₁
    exact List.forall_mem_cons.2 ⟨ha, ih hs₁ hrun⟩

/-- In a run that does not stop, no step does. -/
theorem exists_step_of_foldlM (hrun : as.foldlM step s = some s') : ∀ a ∈ as, ∃ s₁ s₂, step s₁ a = some s₂ := by
  induction as generalizing s with
  | nil => exact fun _ h => nomatch h
  | cons b as ih =>
    rw [List.foldlM_cons, Option.bind_eq_bind, Option.bind_eq_some_iff] at hrun
    obtain ⟨s₁, h₁, hrun⟩ := hrun
    intro a ha
    rcases List.mem_cons.1 ha with rfl | ha
    · exact ⟨s, s₁, h₁⟩
    · exact ih hrun a ha

/-- A run whose steps cannot stop reaches a state, and keeps what every step keeps. -/
theorem foldlM_total (hstep : ∀ s a, Inv s → P s a → ∃ s', step s a = some s' ∧ Inv s')
    (hs : Inv s) (hP : Along step P s as) : ∃ s', as.foldlM step s = some s' ∧ Inv s' := by
  induction as generalizing s with
  | nil => exact ⟨s, rfl, hs⟩
  | cons a as ih =>
    obtain ⟨ha, hrest⟩ := hP
    obtain ⟨s₁, h₁, hs₁⟩ := hstep s a hs ha
    obtain ⟨s', hrun, hs'⟩ := ih hs₁ (hrest s₁ h₁)
    refine ⟨s', ?_, hs'⟩
    rw [List.foldlM_cons, h₁]
    exact hrun

/-- The same, where the invariant is about the part of the list that is done. -/
theorem foldlM_total_done {l : List α} (Inv : List α → σ → Prop)
    (hstep : ∀ done a rest s, l = done ++ a :: rest → Inv done s → ∃ s', step s a = some s' ∧ Inv (done ++ [a]) s')
    (hs : Inv [] s) : ∃ s', l.foldlM step s = some s' ∧ Inv l s' := by
  suffices ∀ rest done s, l = done ++ rest → Inv done s → ∃ s', rest.foldlM step s = some s' ∧ Inv l s' from
    this l [] s rfl hs
  intro rest
  induction rest with
  | nil =>
    intro done s hl hs
    rw [List.append_nil] at hl
    exact ⟨s, rfl, hl ▸ hs⟩
  | cons a rest ih =>
    intro done s hl hs
    obtain ⟨s₁, h₁, hs₁⟩ := hstep done a rest s hl hs
    obtain ⟨s', hrun, hs'⟩ := ih (done ++ [a]) s₁ (by rw [hl, List.append_assoc]; rfl) hs₁
    refine ⟨s', ?_, hs'⟩
    rw [List.foldlM_cons, h₁]
    exact hrun

/-- A run that does not stop keeps what is about the part of the list that is done. -/
theorem foldlM_invariant_done {l : List α} (Inv : List α → σ → Prop)
    (hstep : ∀ done a rest s s', l = done ++ a :: rest → Inv done s → step s a = some s' → Inv (done ++ [a]) s')
    (hs : Inv [] s) (hrun : l.foldlM step s = some s') : Inv l s' := by
  suffices ∀ rest done s, l = done ++ rest → Inv done s → rest.foldlM step s = some s' → Inv l s' from
    this l [] s rfl hs hrun
  intro rest
  induction rest with
  | nil =>
    intro done s hl hs hrun
    rw [List.append_nil] at hl
    cases hrun
    exact hl ▸ hs
  | cons a rest ih =>
    intro done s hl hs hrun
    rw [List.foldlM_cons, Option.bind_eq_bind, Option.bind_eq_some_iff] at hrun
    obtain ⟨s₁, h₁, hrun⟩ := hrun
    exact ih (done ++ [a]) s₁ (by rw [hl, List.append_assoc]; rfl) (hstep done a rest s s₁ hl hs h₁) hrun

theorem along_append {bs : List α} : Along step P s (as ++ bs) ↔
    Along step P s as ∧ ∀ s', as.foldlM step s = some s' → Along step P s' bs := by
  induction as generalizing s with
  | nil => simp [Along]
  | cons a as ih =>
    simp only [List.cons_append, Along, ih, List.foldlM_cons, Option.bind_eq_bind, Option.bind_eq_some_iff]
    constructor
    · rintro ⟨ha, h⟩
      exact ⟨⟨ha, fun s₁ h₁ => (h s₁ h₁).1⟩, fun s' ⟨s₁, h₁, h'⟩ => (h s₁ h₁).2 s' h'⟩
    · rintro ⟨⟨ha, h⟩, h'⟩
      exact ⟨ha, fun s₁ h₁ => ⟨h s₁ h₁, fun s' hs' => h' s' ⟨s₁, h₁, hs'⟩⟩⟩

/-- When a step keeps what held exactly under its condition, and what is lost stays lost, so does a run. -/
theorem foldlM_iff_along (hstep : ∀ a ∈ as, ∀ s s', step s a = some s' → (Inv s' ↔ Inv s ∧ P s a))
    (hrun : as.foldlM step s = some s') : Inv s' ↔ Inv s ∧ Along step P s as := by
  induction as generalizing s with
  | nil =>
    cases hrun
    simp [Along]
  | cons a as ih =>
    rw [List.foldlM_cons, Option.bind_eq_bind, Option.bind_eq_some_iff] at hrun
    obtain ⟨s₁, h₁, hrun⟩ := hrun
    rw [ih (fun b hb => hstep b (List.mem_cons_of_mem _ hb)) hrun, hstep a List.mem_cons_self s s₁ h₁, Along, and_assoc]
    refine and_congr_right fun _ => and_congr_right fun _ => ⟨fun h s₂ h₂ => ?_, fun h => h s₁ h₁⟩
    rw [h₁] at h₂
    cases h₂
    exact h

/-- Conditions that agree in every state of an invariant agree along a run. -/
theorem along_congr {Q : σ → α → Prop} (hstep : ∀ s a s', Inv s → step s a = some s' → Inv s')
    (hPQ : ∀ s a, Inv s → (P s a ↔ Q s a)) (hs : Inv s) : Along step P s as ↔ Along step Q s as := by
  induction as generalizing s with
  | nil => exact Iff.rfl
  | cons a as ih =>
    refine and_congr (hPQ s a hs) (forall_congr' fun s' => forall_congr' fun hs' => ?_)
    exact ih (hstep s a s' hs hs')

/-! ## Loops over a list -/

/-- A loop runs to its end when, behind any part of the list that it has done, the next
round does. -/
theorem forM_total {f : α → StateT σ Option Unit} {l : List α} (Inv : List α → σ → Prop)
    (hstep : ∀ done x rest s, l = done ++ x :: rest → Inv done s →
      ∃ s', f x s = some ((), s') ∧ Inv (done ++ [x]) s')
    (hs : Inv [] s) : ∃ s', l.forM f s = some ((), s') ∧ Inv l s' := by
  suffices ∀ rest done s, l = done ++ rest → Inv done s → ∃ s', rest.forM f s = some ((), s') ∧ Inv l s' from
    this l [] s rfl hs
  intro rest
  induction rest with
  | nil =>
    intro done s hl hs
    rw [List.append_nil] at hl
    exact ⟨s, rfl, hl ▸ hs⟩
  | cons x rest ih =>
    intro done s hl hs
    obtain ⟨s₁, h₁, hs₁⟩ := hstep done x rest s hl hs
    obtain ⟨s', h', hs'⟩ := ih (done ++ [x]) s₁ (by rw [hl, List.append_assoc]; rfl) hs₁
    refine ⟨s', ?_, hs'⟩
    change (f x s >>= fun r => rest.forM f r.2) = _
    rw [h₁]
    exact h'

/-- A loop that collects the results, one for each element. -/
theorem mapM_eq_some_iff {β : Type} {f : α → Option β} {l : List α} {bs : List β} :
    l.mapM f = some bs ↔ List.Forall₂ (fun a b => f a = some b) l bs := by
  induction l generalizing bs with
  | nil => simp [eq_comm]
  | cons a l ih =>
    simp only [List.mapM_cons, Option.bind_eq_bind, Option.bind_eq_some_iff, Option.pure_def, Option.some.injEq, ih]
    constructor
    · rintro ⟨b, hb, bs, hbs, rfl⟩
      exact .cons hb hbs
    · rintro (_ | ⟨hb, hbs⟩)
      exact ⟨_, hb, _, hbs, rfl⟩

theorem exists_left_of_forall₂ {β : Type} {R : α → β → Prop} {l : List α} {bs : List β} (h : List.Forall₂ R l bs) :
    ∀ b ∈ bs, ∃ a ∈ l, R a b := by
  induction h with
  | nil => exact fun _ h => nomatch h
  | cons hab _ ih =>
    intro b hb
    rcases List.mem_cons.1 hb with rfl | hb
    · exact ⟨_, List.mem_cons_self, hab⟩
    · obtain ⟨a, ha, hab⟩ := ih b hb
      exact ⟨a, List.mem_cons_of_mem _ ha, hab⟩

theorem exists_right_of_forall₂ {β : Type} {R : α → β → Prop} {l : List α} {bs : List β} (h : List.Forall₂ R l bs) :
    ∀ a ∈ l, ∃ b ∈ bs, R a b :=
  exists_left_of_forall₂ (R := fun b a => R a b) h.flip

theorem exists_forall₂ {β : Type} {R : α → β → Prop} {l : List α} (h : ∀ a ∈ l, ∃ b, R a b) :
    ∃ bs, List.Forall₂ R l bs := by
  induction l with
  | nil => exact ⟨[], .nil⟩
  | cons a l ih =>
    obtain ⟨b, hb⟩ := h a List.mem_cons_self
    obtain ⟨bs, hbs⟩ := ih fun a ha => h a (List.mem_cons_of_mem _ ha)
    exact ⟨b :: bs, .cons hb hbs⟩

end Egalito.Lib
