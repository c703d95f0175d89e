import Egalito.Lib.Run
/-!
# A marked search that writes down what it finds

At a node there is a list of tasks: something is written down, or another node is
entered, where a marked one is left at once. The search ends where finitely many
nodes are in reach, and has then written down what stands at all of them.
-/

open Relation

namespace Egalito.Lib

inductive Task (ω κ : Type) where
  | note (o : ω)
  | enter (k : κ)

/-- What is written down, from the first, and the marked nodes. -/
structure Exploration (ω κ : Type) where
  notes : List ω
  seen : List κ

variable {ω κ : Type} [DecidableEq κ] (tasks : κ → List (Task ω κ))

/-- One task, when nodes are entered by `f`. -/
def Task.run (f : κ → Exploration ω κ → Option (Exploration ω κ)) (s : Exploration ω κ) :
    Task ω κ → Option (Exploration ω κ)
  | note o => some { s with notes := s.notes ++ [o] }
  | enter k => f k s

/-- `none` is a search deeper than the fuel. -/
def explore : Nat → κ → Exploration ω κ → Option (Exploration ω κ)
  | 0, _, _ => none
  | fuel + 1, k, s =>
    if k ∈ s.seen then some s
    else (tasks k).foldlM (Task.run (explore fuel)) { s with seen := k :: s.seen }

def Descends (k k' : κ) : Prop := .enter k' ∈ tasks k

variable {tasks}

/-! ## What a search keeps and adds -/

/-- A task that has nothing left to do. -/
def Task.Done (s : Exploration ω κ) : Task ω κ → Prop
  | note o => o ∈ s.notes
  | enter k => k ∈ s.seen

variable (tasks) in
/-- Nothing is lost, and at the nodes marked on the way everything is done. -/
structure Advances (s s' : Exploration ω κ) : Prop where
  notes : ∀ o ∈ s.notes, o ∈ s'.notes
  seen : ∀ k ∈ s.seen, k ∈ s'.seen
  done : ∀ k ∈ s'.seen, k ∉ s.seen → ∀ t ∈ tasks k, t.Done s'

theorem Advances.refl (s : Exploration ω κ) : Advances tasks s s := ⟨fun _ h => h, fun _ h => h, fun _ h h' => absurd h h'⟩

theorem Advances.keeps {s s' : Exploration ω κ} (h : Advances tasks s s') {t : Task ω κ} (ht : t.Done s) : t.Done s' := by
  cases t with
  | note o => exact h.notes o ht
  | enter k => exact h.seen k ht

theorem Advances.trans {s s₁ s' : Exploration ω κ} (h : Advances tasks s s₁) (h' : Advances tasks s₁ s') :
    Advances tasks s s' := by
  refine ⟨fun o ho => h'.notes o (h.notes o ho), fun k hk => h'.seen k (h.seen k hk), fun k hk hnew t ht => ?_⟩
  by_cases hk₁ : k ∈ s₁.seen
  · exact h'.keeps (h.done k hk₁ hnew t ht)
  · exact h'.done k hk hk₁ t ht

theorem foldlM_run_advances {f : κ → Exploration ω κ → Option (Exploration ω κ)}
    (hf : ∀ k s s', f k s = some s' → Advances tasks s s' ∧ k ∈ s'.seen) {l : List (Task ω κ)} {s s' : Exploration ω κ}
    (h : l.foldlM (Task.run f) s = some s') : Advances tasks s s' ∧ ∀ t ∈ l, t.Done s' := by
  induction l generalizing s with
  | nil =>
    cases h
    exact ⟨.refl _, by simp⟩
  | cons t l ih =>
    rw [List.foldlM_cons, Option.bind_eq_bind, Option.bind_eq_some_iff] at h
    obtain ⟨s₁, ht, h⟩ := h
    obtain ⟨hrest, hdone⟩ := ih h
    have hfirst : Advances tasks s s₁ ∧ t.Done s₁ := by
      cases t with
      | note o =>
        cases ht
        refine ⟨⟨fun o' ho' => ?_, fun _ hk => hk, fun _ hk hk' => absurd hk hk'⟩, ?_⟩
        · exact List.mem_append_left _ ho'
        · exact List.mem_append_right _ (List.mem_singleton_self o)
      | enter k => exact hf k s s₁ ht
    refine ⟨hfirst.1.trans hrest, fun t' ht' => ?_⟩
    rcases List.mem_cons.1 ht' with rfl | ht'
    · exact hrest.keeps hfirst.2
    · exact hdone t' ht'

theorem explore_advances {fuel : Nat} {k : κ} {s s' : Exploration ω κ} (h : explore tasks fuel k s = some s') :
    Advances tasks s s' ∧ k ∈ s'.seen := by
  induction fuel generalizing k s s' with
  | zero => cases h
  | succ fuel ih =>
    rw [explore] at h
    split_ifs at h with hk
    · cases h
      exact ⟨.refl s, hk⟩
    · obtain ⟨hadv, hdone⟩ := foldlM_run_advances (fun _ _ _ => ih) h
      refine ⟨⟨hadv.notes, fun k' hk' => hadv.seen k' (List.mem_cons_of_mem k hk'), fun k' hk' hnew t ht => ?_⟩,
        hadv.seen k List.mem_cons_self⟩
      rcases eq_or_ne k' k with rfl | hne
      · exact hdone t ht
      · exact hadv.done k' hk' (by simp [hne, hnew]) t ht

/-! ## Where it stays -/

/-- The search marks only nodes of a closed set, and writes down what stands at them. -/
theorem explore_within {K : κ → Prop} (hclosed : ∀ k, K k → ∀ k', Descends tasks k k' → K k') {fuel : Nat} {k : κ}
    (hk : K k) {s s' : Exploration ω κ} (h : explore tasks fuel k s = some s') :
    (∀ k' ∈ s'.seen, k' ∈ s.seen ∨ K k') ∧ ∀ o ∈ s'.notes, o ∈ s.notes ∨ ∃ k', K k' ∧ .note o ∈ tasks k' := by
  induction fuel generalizing k s s' with
  | zero => cases h
  | succ fuel ih =>
    rw [explore] at h
    split_ifs at h with hseen
    · cases h
      exact ⟨fun _ => Or.inl, fun _ => Or.inl⟩
    · refine foldlM_invariant (fun s' : Exploration ω κ => (∀ k' ∈ s'.seen, k' ∈ s.seen ∨ K k') ∧
          ∀ o ∈ s'.notes, o ∈ s.notes ∨ ∃ k', K k' ∧ .note o ∈ tasks k') (P := fun _ t => t ∈ tasks k)
        (s := ⟨s.notes, k :: s.seen⟩) (fun s₁ t s₂ hinv ht hrun => ?_) ⟨fun k' hk' => ?_, fun _ => Or.inl⟩
        (along_of_mem (fun _ ht _ => ht) _) h
      · cases t with
        | note o =>
          cases hrun
          refine ⟨hinv.1, fun o' ho' => ?_⟩
          rcases List.mem_append.1 ho' with ho' | ho'
          · exact hinv.2 o' ho'
          · rw [List.mem_singleton] at ho'
            exact .inr ⟨k, hk, ho' ▸ ht⟩
        | enter k' =>
          obtain ⟨hseen₂, hnotes₂⟩ := ih (hclosed k hk k' ht) hrun
          exact ⟨fun k'' hk'' => (hseen₂ k'' hk'').elim (hinv.1 k'') .inr,
            fun o ho => (hnotes₂ o ho).elim (hinv.2 o) .inr⟩
      · rcases List.mem_cons.1 hk' with rfl | hk'
        · exact .inr hk
        · exact .inl hk'

/-- From nothing, the search writes down what stands at the nodes in reach. -/
theorem mem_notes_explore {fuel : Nat} {k : κ} {s : Exploration ω κ} (h : explore tasks fuel k ⟨[], []⟩ = some s) {o : ω} :
    o ∈ s.notes ↔ ∃ k', ReflTransGen (Descends tasks) k k' ∧ .note o ∈ tasks k' := by
  constructor
  · intro ho
    rcases (explore_within (K := ReflTransGen (Descends tasks) k) (fun _ hk _ he => hk.tail he) .refl h).2 o ho with ho | ho
    · exact absurd ho List.not_mem_nil
    · exact ho
  · rintro ⟨k', hreach, ho⟩
    obtain ⟨hadv, hk⟩ := explore_advances h
    have hseen : k' ∈ s.seen := by
      clear ho
      induction hreach with
      | refl => exact hk
      | tail _ he ih => exact hadv.done _ ih List.not_mem_nil _ he
    exact hadv.done k' hseen List.not_mem_nil _ ho

/-! ## It ends -/

/-- The nodes of a finite set that are not marked. -/
def unmarked (A : Finset κ) (s : Exploration ω κ) : Finset κ := A.filter (· ∉ s.seen)

theorem card_unmarked_le {A : Finset κ} {s s' : Exploration ω κ} (h : ∀ k ∈ s.seen, k ∈ s'.seen) :
    (unmarked A s').card ≤ (unmarked A s).card :=
  Finset.card_le_card fun k hk => by
    rw [unmarked, Finset.mem_filter] at hk ⊢
    exact ⟨hk.1, fun hs => hk.2 (h k hs)⟩

theorem explore_total {A : Finset κ} (hclosed : ∀ k ∈ A, ∀ k', Descends tasks k k' → k' ∈ A) {fuel : Nat} {k : κ}
    (hk : k ∈ A) {s : Exploration ω κ} (hfuel : (unmarked A s).card < fuel) :
    ∃ s', explore tasks fuel k s = some s' := by
  induction fuel generalizing k s with
  | zero => omega
  | succ fuel ih =>
    rw [explore]
    split_ifs with hseen
    · exact ⟨s, rfl⟩
    · have hless : (unmarked A ⟨s.notes, k :: s.seen⟩).card < (unmarked A s).card := by
        refine Finset.card_lt_card (Finset.ssubset_iff_of_subset ?_ |>.2 ⟨k, ?_, ?_⟩)
        · intro k' hk'
          rw [unmarked, Finset.mem_filter] at hk' ⊢
          exact ⟨hk'.1, fun hs => hk'.2 (List.mem_cons_of_mem k hs)⟩
        · exact Finset.mem_filter.2 ⟨hk, hseen⟩
        · exact fun hmem => (Finset.mem_filter.1 hmem).2 List.mem_cons_self
      have hstep : ∀ s₁ t, (unmarked A s₁).card < fuel → t ∈ tasks k →
          ∃ s₂, Task.run (explore tasks fuel) s₁ t = some s₂ ∧ (unmarked A s₂).card < fuel := by
        intro s₁ t hinv ht
        cases t with
        | note o => exact ⟨_, rfl, hinv⟩
        | enter k' =>
          obtain ⟨s₂, hs₂⟩ := ih (hclosed k hk k' ht) hinv
          exact ⟨s₂, hs₂, (card_unmarked_le (explore_advances hs₂).1.seen).trans_lt hinv⟩
      obtain ⟨s', hs', -⟩ := foldlM_total (fun s₁ => (unmarked A s₁).card < fuel) hstep
        (s := ⟨s.notes, k :: s.seen⟩) (by omega) (along_of_mem (fun _ ht _ => ht) _)
      exact ⟨s', hs'⟩

end Egalito.Lib
