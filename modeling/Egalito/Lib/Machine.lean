import Mathlib.Tactic
/-!
# Machines in step

A machine steps until it halts; `none` is a step without a defined result. One
machine follows another as long as each of its steps finds the condition under
which the two do the same.
-/

namespace Egalito.Lib

/-- A partial step function with its final states. -/
structure Machine (σ : Type) where
  halted : σ → Bool
  step : σ → Option σ

namespace Machine

variable {σ τ : Type}

/-- The state after `n` steps; a machine that has halted stays where it is. -/
def after (m : Machine σ) : Nat → σ → Option σ
  | 0, s => some s
  | n + 1, s => if m.halted s then some s else (m.step s).bind (m.after n)

/-- The condition holds before each of the first `n` steps, in the states that the two
machines have reached there. -/
def Along (m : Machine σ) (m' : Machine τ) (Ok : σ → τ → Prop) : Nat → σ → τ → Prop
  | 0, _, _ => True
  | n + 1, s, t => m.halted s = false →
      Ok s t ∧ ∀ s' t', m.step s = some s' → m'.step t = some t' → Along m m' Ok n s' t'

variable {m : Machine σ} {m' : Machine τ} {R : σ → τ → Prop} {Ok : σ → τ → Prop} {n : Nat} {s s' : σ} {t : τ}

theorem Along.mono {k : Nat} (hk : k ≤ n) (h : Along m m' Ok n s t) : Along m m' Ok k s t := by
  induction k generalizing n s t with
  | zero => trivial
  | succ k ih =>
    obtain ⟨n, rfl⟩ : ∃ j, n = j + 1 := ⟨n - 1, by omega⟩
    intro hhalted
    obtain ⟨hnow, hrest⟩ := h hhalted
    exact ⟨hnow, fun s' t' hs ht => ih (Nat.le_of_succ_le_succ hk) (hrest s' t' hs ht)⟩

/-- What a step does under its condition, a run does whose steps all meet it. -/
theorem simulates (hhalted : ∀ s t, R s t → m'.halted t = m.halted s)
    (hstep : ∀ s t s', R s t → Ok s t → m.halted s = false → m.step s = some s' →
      ∃ t', m'.step t = some t' ∧ R s' t')
    (hR : R s t) (hok : Along m m' Ok n s t) (hrun : m.after n s = some s') :
    ∃ t', m'.after n t = some t' ∧ R s' t' := by
  induction n generalizing s t with
  | zero =>
    simp only [after, Option.some.injEq] at hrun
    exact ⟨t, rfl, hrun ▸ hR⟩
  | succ n ih =>
    rw [after] at hrun
    rw [after, hhalted s t hR]
    by_cases hhalt : m.halted s = true
    · rw [if_pos hhalt] at hrun ⊢
      cases hrun
      exact ⟨t, rfl, hR⟩
    · rw [if_neg hhalt] at hrun ⊢
      obtain ⟨s₁, hs₁, hrun⟩ := Option.bind_eq_some_iff.1 hrun
      obtain ⟨hnow, hrest⟩ := hok (by simpa using hhalt)
      obtain ⟨t₁, ht₁, hR₁⟩ := hstep s t s₁ hR hnow (by simpa using hhalt) hs₁
      rw [ht₁]
      exact ih hR₁ (hrest s₁ t₁ hs₁ ht₁) hrun

end Machine

end Egalito.Lib
