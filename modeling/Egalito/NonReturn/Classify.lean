import Egalito.NonReturn.Pass
import Mathlib.Logic.Relation
/-!
# Which functions never return

What it means that a function returns, in terms of its control-flow graph, and when
the pass says the same.
-/

open Egalito.Lib

namespace Egalito.NonReturn

/-! ## Ways to return -/

section Spec

variable (s : State) (f : Function)

/-- A call or an unconditional jump that does not come back ends a path. -/
def Ends (n : Nat) : Prop := ∃ b cfi, f.blocks[n]? = some b ∧ .controlFlow cfi ∈ b.instructions ∧
  cfi.mnemonic ≠ .conditional ∧ comesBack s cfi = false

/-- A block may return where the graph ends, and through a conditional jump that leaves the
function for a target that may return. -/
def MayReturn (n : Nat) : Prop := f.forwardLinks n = [] ∨
  ∃ b cfi, f.blocks[n]? = some b ∧ b.last = .controlFlow cfi ∧ cfi.mnemonic = .conditional ∧
    (∀ k, cfi.target ≠ .block k) ∧ comesBack s cfi = true

/-- No path from the entry gets to an exit that may return. -/
def NeverReturns : Prop := f.blocks ≠ [] ∧ ¬ Escapes (Ends s f) (MayReturn s f) (Linked f) 0

/-- A conditional jump at the end of the block goes to a function, or to another block and is
not marked. -/
def Plain (n : Nat) : Prop := ∀ b cfi, f.blocks[n]? = some b → b.last = .controlFlow cfi →
  cfi.mnemonic = .conditional → (∃ g, cfi.target = .function g) ∨ ((∃ k, cfi.target = .block k) ∧ cfi.nonreturn = false)

/-- The blocks that the graph leads to. -/
def Reaches (n : Nat) : Prop := Relation.ReflTransGen (Linked f) 0 n

end Spec

/-! ## The scan of a block -/

section Blocks

variable {s : State} {f : Function} {n : Nat}

theorem scan_init_none_iff {init : List Instruction} (hinit : ∀ i ∈ init, i.isJump = false) :
    scan s init = none ↔ ∃ cfi, .controlFlow cfi ∈ init ∧ comesBack s cfi = false := by
  induction init with
  | nil => simp [scan]
  | cons i init ih =>
    have hih := ih fun i hi => hinit i (List.mem_cons_of_mem _ hi)
    cases i with
    | controlFlow cfi =>
      rw [scan_cons (not_breaks_of_not_isJump (hinit _ List.mem_cons_self))]
      cases hc : comesBack s cfi with
      | false => exact iff_of_true rfl ⟨cfi, List.mem_cons_self, hc⟩
      | true =>
        rw [if_pos rfl, hih]
        refine exists_congr fun cfi' => and_congr_left fun hf => ?_
        refine ⟨fun h => List.mem_cons_of_mem _ h, fun h => (List.mem_cons.1 h).resolve_left fun heq => ?_⟩
        cases heq
        rw [hc] at hf
        cases hf
    | _ =>
      refine hih.trans (exists_congr fun cfi' => and_congr_left fun _ => ?_)
      simp

/-- A plain conditional jump that stays in the function is never taken for a stop. -/
theorem breaks_of_conditional (hp : Plain f n) {b : Block} {cfi : ControlFlowInstruction} (hb : f.blocks[n]? = some b)
    (hlast : b.last = .controlFlow cfi) (hm : cfi.mnemonic = .conditional) (hstay : comesBack s cfi = false ∨ ∀ k, cfi.target ≠ .block k) :
    cfi.breaks := by
  rcases hp b cfi hb hlast hm with hg | ⟨⟨k, hk⟩, hr⟩
  · exact ⟨hm, hg⟩
  · rcases hstay with hc | hc
    · simp [comesBack, ControlFlowInstruction.returns, hr, hk, hasLinkToNeverReturn] at hc
    · exact absurd hk (hc k)

theorem stops_iff_ends (hp : Plain f n) : Stops s f n ↔ Ends s f n := by
  constructor
  · rintro ⟨b, hb, hscan⟩
    rw [scan_block, Option.bind_eq_none_iff] at hscan
    cases hinit : scan s b.init with
    | none =>
      obtain ⟨cfi, hmem, hc⟩ := (scan_init_none_iff b.jumpsLast).1 hinit
      refine ⟨b, cfi, hb, List.mem_append_left _ hmem, fun hm => ?_, hc⟩
      have hj := b.jumpsLast _ hmem
      simp [Instruction.isJump, hm] at hj
    | some own =>
      have hlast := hscan own hinit
      cases hl : b.last with
      | controlFlow cfi =>
        rw [hl] at hlast
        by_cases hbr : cfi.breaks
        · rw [scan_breaks hbr] at hlast
          cases hlast
        · rw [scan_cons hbr] at hlast
          have hc : comesBack s cfi = false := by
            by_contra hc
            rw [if_pos (by simpa using hc)] at hlast
            cases hlast
          refine ⟨b, cfi, hb, ?_, fun hm => hbr (breaks_of_conditional hp hb hl hm (.inl hc)), hc⟩
          rw [Block.instructions, hl]
          simp
      | _ => rw [hl] at hlast; cases hlast
  · rintro ⟨b, cfi, hb, hmem, hm, hc⟩
    refine ⟨b, hb, ?_⟩
    rw [scan_block, Option.bind_eq_none_iff]
    intro own hinit
    rcases List.mem_append.1 hmem with hmem | hmem
    · rw [(scan_init_none_iff b.jumpsLast).2 ⟨cfi, hmem, hc⟩] at hinit
      cases hinit
    · rw [← List.mem_singleton.1 hmem, scan_cons fun hbr => hm hbr.1, hc]
      rfl

theorem leaves_iff_mayReturn (hp : Plain f n) (hns : ¬ Stops s f n) : Leaves s f n ↔ MayReturn s f n := by
  refine or_congr_right ⟨?_, ?_⟩
  · rintro ⟨b, hb, hscan⟩
    rw [scan_block, Option.bind_eq_some_iff] at hscan
    obtain ⟨own, -, hlast⟩ := hscan
    cases hl : b.last with
    | controlFlow cfi =>
      rw [hl] at hlast
      by_cases hbr : cfi.breaks
      · rw [scan_breaks hbr] at hlast
        refine ⟨b, cfi, hb, hl, hbr.1, fun k hk => ?_, by simpa using hlast⟩
        obtain ⟨g, hg⟩ := hbr.2
        rw [hg] at hk
        cases hk
      · rw [scan_cons hbr] at hlast
        split at hlast <;> cases hlast
    | _ => rw [hl] at hlast; cases hlast
  · rintro ⟨b, cfi, hb, hl, hm, hout, hc⟩
    refine ⟨b, hb, ?_⟩
    rw [scan_block]
    cases hinit : scan s b.init with
    | none => exact absurd ⟨b, hb, by rw [scan_block, hinit]; rfl⟩ hns
    | some own =>
      have hbr : cfi.breaks := breaks_of_conditional (s := s) hp hb hl hm (.inr hout)
      rw [Option.bind_some, hl, scan_breaks hbr, hc]
      rfl

end Blocks

/-! ## The pass -/

section Pass

variable {s : State} {f : Function}

theorem wayOut_iff_returns (hp : ∀ n, Reaches f n → Plain f n) :
    WayOut s f 0 ↔ Escapes (Ends s f) (MayReturn s f) (Linked f) 0 := by
  have hsucc : ∀ n m, Reaches f n → Linked f n m → Reaches f m := fun n m hn hm => hn.tail hm
  constructor
  · refine Escapes.imp .refl hsucc (fun n hn he => (stops_iff_ends (hp n hn)).2 he) (fun n m _ _ hm => hm) ?_
    intro n hn hns hl
    exact (leaves_iff_mayReturn (hp n hn) hns).1 hl
  · refine Escapes.imp .refl hsucc (fun n hn he => (stops_iff_ends (hp n hn)).1 he) (fun n m _ _ hm => hm) ?_
    intro n hn hne hl
    exact (leaves_iff_mayReturn (hp n hn) fun hs => hne ((stops_iff_ends (hp n hn)).1 hs)).2 hl

theorem forwardLinks_congr {g : Function} (h : f.blocks = g.blocks) (n : Nat) : f.forwardLinks n = g.forwardLinks n := by
  rw [Function.forwardLinks, Function.forwardLinks, h]

theorem neverReturns_congr {g : Function} (h : f.blocks = g.blocks) : NeverReturns s f ↔ NeverReturns s g := by
  obtain ⟨names, nonreturn, blocks⟩ := f
  obtain ⟨names', nonreturn', blocks'⟩ := g
  cases h
  rfl

/-- The marks of a run leave plain blocks plain. -/
theorem Plain.mark {s₀ : State} {n : Nat} {p : Nat → Nat → ControlFlowInstruction → Bool}
    (hm : ∀ b i cfi, p b i cfi = true →
      hasLinkToNeverReturn s cfi.target = true ∨ hasLinkToGNUError s₀ cfi.target = true)
    (h : Plain f n) : Plain (f.mark p) n := by
  intro b' cfi' hb' hlast' hcond
  rw [Function.getElem?_mark, Option.map_eq_some_iff] at hb'
  obtain ⟨b, hb, rfl⟩ := hb'
  change b.last.mark (p n b.init.length) = _ at hlast'
  cases hlast : b.last with
  | controlFlow cfi =>
    rw [hlast, Instruction.mark] at hlast'
    cases hlast'
    by_cases hp : p n b.init.length cfi = true
    · rw [if_pos hp] at hcond ⊢
      refine (h b cfi hb hlast hcond).imp_right fun hlink => ?_
      obtain ⟨⟨k, hk⟩, hr⟩ := hlink
      -- a jump to another block is not one that the pass marks
      rcases hm _ _ _ hp with hl | hl <;> rw [hk] at hl <;> cases hl
    · rw [if_neg hp] at hcond ⊢
      exact h b cfi hb hlast hcond
  | _ => rw [hlast] at hlast'; cases hlast'

theorem Reaches.of_mark {n : Nat} {p : Nat → Nat → ControlFlowInstruction → Bool} (h : Reaches (f.mark p) n) :
    Reaches f n := by
  induction h with
  | refl => exact .refl
  | tail _ hab ih => exact ih.tail (forwardLinks_mark_subset p f _ hab)

end Pass

theorem callProgram_plain : ∀ f ∈ [0, 1], ∀ n, Plain (callProgram.functions f) n := by
  intro f hf n b cfi hb hlast hm
  have hmem := List.mem_of_getElem? hb
  simp only [List.mem_cons, List.not_mem_nil, or_false] at hf
  rcases hf with rfl | rfl <;> simp only [callProgram, Block.single, List.mem_cons, List.not_mem_nil, or_false] at hmem <;>
    rcases hmem with rfl | rfl <;> cases hlast <;> cases hm

/-- A function that returns unless a condition sends it to `abort` through the PLT. -/
def pltProgram : State where
  functions
    | 0 => ⟨["check"], false, [.single (.controlFlow ⟨.conditional, .plt (some "abort"), false⟩), .single .return]⟩
    | _ => ⟨[], false, []⟩
  nonReturnList := []

end Egalito.NonReturn
