import Mathlib.Tactic
import Mathlib.Data.BitVec
/-!
# Tests of bits

A pattern fixes some bits of a word, and a decision asks for patterns until it
has a result. Where a pattern is known to match, a decision is pruned to the
questions that it leaves open.
-/

namespace Egalito.Lib

variable {w : Nat} {α : Type}

structure Pattern (w : Nat) where
  mask : BitVec w
  value : BitVec w
deriving DecidableEq

namespace Pattern

variable {p q : Pattern w} {x : BitVec w}

def Matches (p : Pattern w) (x : BitVec w) : Prop := x &&& p.mask = p.value

instance (p : Pattern w) (x : BitVec w) : Decidable (p.Matches x) := inferInstanceAs (Decidable (_ = _))

/-- Whether `q` matches, as far as the bits of `p` tell. -/
def known (p q : Pattern w) : Option Bool :=
  if q.mask &&& p.mask = q.mask then some (decide (p.value &&& q.mask = q.value))
  else if p.value &&& q.mask = q.value &&& p.mask then none
  else some false

theorem known_sound (hp : p.Matches x) {b : Bool} (h : p.known q = some b) : q.Matches x ↔ b = true := by
  have hcommon : x &&& q.mask &&& p.mask = p.value &&& q.mask := by
    rw [BitVec.and_assoc, BitVec.and_comm q.mask, ← BitVec.and_assoc, hp]
  unfold known at h
  split_ifs at h with hsub hagree
  · cases h
    rw [decide_eq_true_iff, ← hcommon, BitVec.and_assoc, hsub]
    rfl
  · cases h
    simp only [Bool.false_eq_true, iff_false]
    intro hq
    rw [hq] at hcommon
    exact hagree hcommon.symm

/-- The bits that one of the patterns fixes. -/
def meet (p q : Pattern w) : Pattern w := ⟨p.mask ||| q.mask, p.value ||| q.value⟩

theorem Matches.meet (hp : p.Matches x) (hq : q.Matches x) : (p.meet q).Matches x :=
  BitVec.and_or_distrib_left.trans (congrArg₂ (· ||| ·) hp hq)

end Pattern

/-- A test of bits further up. -/
theorem shiftRight_and_eq_iff {x m v : BitVec w} {k : Nat} (hm : m <<< k >>> k = m) (hv : v <<< k >>> k = v) :
    x >>> k &&& m = v ↔ x &&& m <<< k = v <<< k := by
  constructor
  · rintro rfl
    refine BitVec.eq_of_getLsbD_eq fun i hi => ?_
    by_cases hk : i < k
    · simp [hk]
    · simp [hk, hi, show k + (i - k) = i by omega]
  · intro h
    have hshift := congrArg (fun z : BitVec w => z >>> k) h
    simp only [BitVec.ushiftRight_and_distrib, hm, hv] at hshift
    exact hshift

inductive Decision (w : Nat) (α : Type)
  | result (a : α)
  | ask (p : Pattern w) (yes no : Decision w α)
deriving DecidableEq

namespace Decision

variable {p : Pattern w} {x : BitVec w}

def eval (x : BitVec w) : Decision w α → α
  | result a => a
  | ask p yes no => if p.Matches x then yes.eval x else no.eval x

/-- Asks whether one of some patterns matches. -/
def any (ps : List (Pattern w)) (yes no : Decision w α) : Decision w α := ps.foldr (fun p d => ask p yes d) no

theorem eval_any {ps : List (Pattern w)} {yes no : Decision w α} :
    (any ps yes no).eval x = if ∃ p ∈ ps, p.Matches x then yes.eval x else no.eval x := by
  induction ps with
  | nil => simp [any]
  | cons p ps ih =>
    rw [any, List.foldr_cons, ← any, eval, ih]
    by_cases hp : p.Matches x <;> simp [hp]

/-- The questions that are left when `p` matches; behind one that is answered with yes, more is known. -/
def prune (p : Pattern w) : Decision w α → Decision w α
  | result a => result a
  | ask q yes no =>
    match p.known q with
    | some true => yes.prune p
    | some false => no.prune p
    | none => ask q (yes.prune (p.meet q)) (no.prune p)

theorem eval_prune (hp : p.Matches x) (d : Decision w α) : (d.prune p).eval x = d.eval x := by
  induction d generalizing p with
  | result a => rfl
  | ask q yes no hyes hno =>
    rw [prune, eval]
    cases h : p.known q with
    | none =>
      rw [eval, hno hp]
      by_cases hq : q.Matches x
      · rw [if_pos hq, if_pos hq, hyes (hp.meet hq)]
      · rw [if_neg hq, if_neg hq]
    | some b =>
      have hq := Pattern.known_sound hp h
      cases b with
      | true => simp only [hyes hp, hq, if_true]
      | false => simp only [hno hp, hq, Bool.false_eq_true, if_false]

def results : Decision w α → List α
  | result a => [a]
  | ask _ yes no => yes.results ++ no.results

theorem eval_mem_results (d : Decision w α) : d.eval x ∈ d.results := by
  induction d with
  | result a => exact List.mem_singleton_self a
  | ask p yes no hyes hno =>
    rw [eval, results]
    split_ifs
    · exact List.mem_append_left _ hyes
    · exact List.mem_append_right _ hno

end Decision

end Egalito.Lib
