import Mathlib.Tactic
/-!
# Recursive procedures

The body of a procedure makes calls one after the other, and which call comes
next may depend on what the earlier ones have returned. A call terminates when
the chains of calls below it are finite; where only finitely many calls are
possible, that is when none of them leads back to itself.
-/

open Relation

namespace Egalito.Lib

/-- A body that returns, or makes a call and goes on with its result. -/
inductive Proc (κ ρ α : Type) where
  | ret (a : α)
  | call (k : κ) (cont : ρ → Proc κ ρ α)

namespace Proc

variable {κ ρ α β : Type}

protected def bind : Proc κ ρ α → (α → Proc κ ρ β) → Proc κ ρ β
  | ret a, f => f a
  | call k cont, f => call k fun r => (cont r).bind f

instance : Monad (Proc κ ρ) where
  pure := ret
  bind := Proc.bind

/-- The result, when the calls are answered by `f`. -/
def eval (f : κ → Option ρ) : Proc κ ρ α → Option α
  | ret a => some a
  | call k cont => (f k).bind fun r => (cont r).eval f

theorem eval_mono {f g : κ → Option ρ} (hfg : ∀ k r, f k = some r → g k = some r) {p : Proc κ ρ α} {a : α}
    (h : p.eval f = some a) : p.eval g = some a := by
  induction p with
  | ret b => exact h
  | call k cont ih =>
    rw [eval, Option.bind_eq_some_iff] at h
    obtain ⟨r, hr, h⟩ := h
    rw [eval, hfg k r hr]
    exact ih r h

/-- Whatever the calls return, only calls with `P` are made. -/
def All (P : κ → Prop) : Proc κ ρ α → Prop
  | ret _ => True
  | call k cont => P k ∧ ∀ r, (cont r).All P

theorem all_bind {P : κ → Prop} {p : Proc κ ρ α} {f : α → Proc κ ρ β} (hp : p.All P) (hf : ∀ a, (f a).All P) :
    (p >>= f).All P := by
  induction p with
  | ret a => exact hf a
  | call k cont ih => exact ⟨hp.1, fun r => ih r (hp.2 r)⟩

end Proc

variable {κ ρ α : Type} (body : κ → Proc κ ρ ρ)

/-- A call with a bound on the depth of the calls below it. -/
def runProc : Nat → κ → Option ρ
  | 0, _ => none
  | depth + 1, k => (body k).eval (runProc depth)

def Returns (k : κ) (r : ρ) : Prop := ∃ depth, runProc body depth k = some r

def Terminates (k : κ) : Prop := ∃ r, Returns body k r

/-- The calls that are made, each after the ones before it have returned. -/
inductive CallsIn : Proc κ ρ α → κ → Prop
  | here (k cont) : CallsIn (.call k cont) k
  | later {k cont r k'} (h : Returns body k r) (hrest : CallsIn (cont r) k') : CallsIn (.call k cont) k'

def Calls (k k' : κ) : Prop := CallsIn body (body k) k'

variable {body}

theorem runProc_succ {depth : Nat} {k : κ} {r : ρ} (h : runProc body depth k = some r) :
    runProc body (depth + 1) k = some r := by
  induction depth generalizing k r with
  | zero => cases h
  | succ depth ih => exact Proc.eval_mono (fun _ _ => ih) h

theorem runProc_mono {depth depth' : Nat} (hle : depth ≤ depth') {k : κ} {r : ρ} (h : runProc body depth k = some r) :
    runProc body depth' k = some r := by
  induction hle with
  | refl => exact h
  | step _ ih => exact runProc_succ ih

theorem Returns.unique {k : κ} {r r' : ρ} (h : Returns body k r) (h' : Returns body k r') : r = r' := by
  obtain ⟨d, hd⟩ := h
  obtain ⟨d', hd'⟩ := h'
  have := runProc_mono (le_max_left d d') hd
  rw [runProc_mono (le_max_right d d') hd'] at this
  exact (Option.some.inj this).symm

/-- A body returns when all the calls it makes do. -/
theorem exists_eval {p : Proc κ ρ α} (h : ∀ k, CallsIn body p k → Terminates body k) :
    ∃ depth a, p.eval (runProc body depth) = some a := by
  induction p with
  | ret a => exact ⟨0, a, rfl⟩
  | call k cont ih =>
    obtain ⟨r, d, hd⟩ := h k (.here k cont)
    obtain ⟨d', a, ha⟩ := ih r fun k' hk' => h k' (.later ⟨d, hd⟩ hk')
    refine ⟨max d d', a, ?_⟩
    rw [Proc.eval, runProc_mono (le_max_left d d') hd]
    exact Proc.eval_mono (fun _ _ => runProc_mono (le_max_right d d')) ha

/-- A body that returns has made calls that return. -/
theorem exists_of_callsIn {depth : Nat} {p : Proc κ ρ α} {k : κ} (hcalls : CallsIn body p k) {a : α}
    (h : p.eval (runProc body depth) = some a) : ∃ r, runProc body depth k = some r := by
  induction hcalls with
  | here k cont =>
    rw [Proc.eval, Option.bind_eq_some_iff] at h
    obtain ⟨r, hr, -⟩ := h
    exact ⟨r, hr⟩
  | later hreturns _ ih =>
    rw [Proc.eval, Option.bind_eq_some_iff] at h
    obtain ⟨r', hr', h⟩ := h
    cases hreturns.unique ⟨depth, hr'⟩
    exact ih h

/-- A call terminates exactly when every chain of calls below it is finite. -/
theorem terminates_iff_acc {k : κ} : Terminates body k ↔ Acc (fun k' k => Calls body k k') k := by
  constructor
  · rintro ⟨r, depth, h⟩
    induction depth generalizing k r with
    | zero => cases h
    | succ depth ih =>
      refine .intro k fun k' hcalls => ?_
      obtain ⟨r', h'⟩ := exists_of_callsIn hcalls h
      exact ih r' h'
  · intro h
    induction h with
    | intro k _ ih =>
      obtain ⟨depth, r, h⟩ := exists_eval ih
      exact ⟨r, depth + 1, h⟩

theorem terminates_of_acc {E : κ → κ → Prop} (hE : ∀ k k', Calls body k k' → E k k') {k : κ}
    (h : Acc (fun k' k => E k k') k) : Terminates body k :=
  terminates_iff_acc.2 (Subrelation.accessible (hE _ _) h)

theorem CallsIn.of_all {P : κ → Prop} {p : Proc κ ρ α} {k : κ} (h : CallsIn body p k) (hall : p.All P) : P k := by
  induction h with
  | here k cont => exact hall.1
  | later _ _ ih => exact ih (hall.2 _)

/-! ## Finitely many calls -/

theorem not_transGen_of_acc {r : κ → κ → Prop} {k : κ} (h : Acc (fun k' k => r k k') k) : ¬ TransGen r k k := by
  induction h with
  | intro k _ ih =>
    intro hcycle
    obtain ⟨k₁, hfirst, hrest⟩ := TransGen.head'_iff.1 hcycle
    exact ih k₁ hfirst (TransGen.tail' hrest hfirst)

/-- Without a cycle, the chains in a finite closed set are finite. -/
theorem acc_of_acyclic {r : κ → κ → Prop} {s : Set κ} (hfinite : s.Finite) (hclosed : ∀ k ∈ s, ∀ k', r k k' → k' ∈ s)
    (hacyclic : ∀ k ∈ s, ¬ TransGen r k k) {k : κ} (hk : k ∈ s) : Acc (fun k' k => r k k') k := by
  have := hfinite.to_subtype
  let back : s → s → Prop := fun x y => TransGen r y x
  have : IsTrans s back := ⟨fun _ _ _ hxy hyz => hyz.trans hxy⟩
  have : Std.Irrefl back := ⟨fun x hx => hacyclic x x.2 hx⟩
  have hwf : WellFounded back := Finite.wellFounded_of_trans_of_irrefl back
  suffices ∀ x : s, Acc (fun k' k => r k k') x from this ⟨k, hk⟩
  intro x
  induction x using hwf.induction with
  | h x ih => exact .intro _ fun k' hcall => ih ⟨k', hclosed x x.2 k' hcall⟩ (.single hcall)

/-- Where finitely many calls are possible, a call terminates exactly when no call below it is made again while it is
active. -/
theorem terminates_iff_acyclic {s : Set κ} (hfinite : s.Finite) (hclosed : ∀ k ∈ s, ∀ k', Calls body k k' → k' ∈ s)
    {k : κ} (hk : k ∈ s) :
    Terminates body k ↔ ¬ ∃ k', ReflTransGen (Calls body) k k' ∧ TransGen (Calls body) k' k' := by
  rw [terminates_iff_acc]
  constructor
  · rintro h ⟨k', hreach, hcycle⟩
    induction hreach using ReflTransGen.head_induction_on with
    | refl => exact not_transGen_of_acc h hcycle
    | head hstep _ ih => exact ih (hclosed _ hk _ hstep) (h.inv hstep)
  · intro h
    push Not at h
    refine acc_of_acyclic (s := {k' | k' ∈ s ∧ ReflTransGen (Calls body) k k'}) (hfinite.subset fun _ hk' => hk'.1) ?_ ?_
      ⟨hk, .refl⟩
    · exact fun k₁ hk₁ k₂ hcall => ⟨hclosed k₁ hk₁.1 k₂ hcall, hk₁.2.tail hcall⟩
    · exact fun k₁ hk₁ => h k₁ hk₁.2

end Egalito.Lib
