import Egalito.NonReturn.Search
import Mathlib.Data.List.Forall2
/-!
# More marks leave fewer ways out

Marks only take links and ways out away: a block loses the link to the next one
only where the search stops. So does a longer list of functions known not to return.
-/

open Egalito.Lib

namespace Egalito.NonReturn

/-! ## Marked functions -/

/-- The second instruction is the first one, perhaps with a mark. -/
def Instruction.MarkedBy (i i' : Instruction) : Prop := ∃ p, i' = i.mark p

theorem Block.instructions_mark (p : Nat → ControlFlowInstruction → Bool) (b : Block) :
    (b.mark p).instructions = b.instructions.mapIdx fun i instr => instr.mark (p i) := by
  simp [Block.instructions, Block.mark, List.mapIdx_append]

theorem Block.markedBy_mark (p : Nat → ControlFlowInstruction → Bool) (b : Block) :
    List.Forall₂ Instruction.MarkedBy b.instructions (b.mark p).instructions := by
  rw [Block.instructions_mark, List.forall₂_iff_get]
  refine ⟨by simp, fun i h h' => ?_⟩
  simp only [List.get_eq_getElem, List.getElem_mapIdx]
  exact ⟨p i, rfl⟩

theorem Function.getElem?_mark (p : Nat → Nat → ControlFlowInstruction → Bool) (f : Function) (n : Nat) :
    (f.mark p).blocks[n]? = (f.blocks[n]?).map (Block.mark (p n)) := by
  simp [Function.mark]

theorem Function.length_mark (p : Nat → Nat → ControlFlowInstruction → Bool) (f : Function) :
    (f.mark p).blocks.length = f.blocks.length := by
  simp [Function.mark]

theorem jumpLinks_mark (p : ControlFlowInstruction → Bool) (i : Instruction) : jumpLinks (i.mark p) = jumpLinks i := by
  cases i with
  | controlFlow cfi =>
    simp only [Instruction.mark]
    split
    · obtain ⟨mnemonic, target, nonreturn⟩ := cfi
      cases target <;> rfl
    · rfl
  | _ => rfl

/-- Only a call loses its way to the next block. -/
theorem fallThrough_mark (p : ControlFlowInstruction → Bool) (i : Instruction) :
    fallThrough (i.mark p) = fallThrough i ∨
      (fallThrough (i.mark p) = false ∧ ∃ cfi, i.mark p = .controlFlow cfi ∧ cfi.mnemonic = .callq ∧ cfi.returns = false) := by
  cases i with
  | controlFlow cfi =>
    simp only [Instruction.mark]
    split
    · obtain ⟨mnemonic, target, nonreturn⟩ := cfi
      cases mnemonic with
      | callq => exact .inr ⟨rfl, _, rfl, rfl, rfl⟩
      | _ => exact .inl rfl
    · exact .inl rfl
  | _ => exact .inl rfl

/-! ## The scan of a block -/

section Scan

variable {s s' : State}

/-- What one control-flow instruction does to the scan. -/
def comesBack (s : State) (cfi : ControlFlowInstruction) : Bool := cfi.returns && !hasLinkToNeverReturn s cfi.target

/-- A conditional jump to a function ends the loop. -/
def ControlFlowInstruction.breaks (cfi : ControlFlowInstruction) : Prop :=
  cfi.mnemonic = .conditional ∧ ∃ f, cfi.target = .function f

theorem scan_breaks {cfi : ControlFlowInstruction} {rest : List Instruction} (h : cfi.breaks) :
    scan s (.controlFlow cfi :: rest) = some (!comesBack s cfi) := by
  obtain ⟨mnemonic, target, nonreturn⟩ := cfi
  obtain ⟨rfl, f, rfl⟩ := h
  rfl

theorem scan_cons {cfi : ControlFlowInstruction} {rest : List Instruction} (h : ¬ cfi.breaks) :
    scan s (.controlFlow cfi :: rest) = if comesBack s cfi then scan s rest else none := by
  obtain ⟨mnemonic, target, nonreturn⟩ := cfi
  cases mnemonic <;> cases target <;> first | rfl | exact absurd ⟨rfl, _, rfl⟩ h

theorem comesBack_mark (hlink : ∀ t, hasLinkToNeverReturn s t → hasLinkToNeverReturn s' t)
    {p : ControlFlowInstruction → Bool} {cfi : ControlFlowInstruction}
    (h : comesBack s' (if p cfi then cfi.setNonreturn else cfi)) : comesBack s cfi := by
  simp only [comesBack, Bool.and_eq_true, Bool.not_eq_true'] at h ⊢
  split at h
  · cases h.1
  · refine ⟨h.1, Bool.eq_false_iff.2 fun hc => ?_⟩
    rw [hlink _ hc] at h
    cases h.2

theorem breaks_mark {p : ControlFlowInstruction → Bool} {cfi : ControlFlowInstruction} :
    (if p cfi then cfi.setNonreturn else cfi).breaks ↔ cfi.breaks := by
  split <;> rfl

/-- With more marks and more functions known not to return, the scan still stops where it
did, and finds no new way out. -/
theorem scan_mono (hlink : ∀ t, hasLinkToNeverReturn s t → hasLinkToNeverReturn s' t) {l l' : List Instruction}
    (h : List.Forall₂ Instruction.MarkedBy l l') :
    (scan s l = none → scan s' l' = none) ∧ (scan s' l' = some false → scan s l = some false) := by
  induction h with
  | nil => exact ⟨id, fun h => by cases h⟩
  | @cons i i' l l' hi hl ih =>
    obtain ⟨p, rfl⟩ := hi
    cases i with
    | controlFlow cfi =>
      simp only [Instruction.mark]
      have hback := @comesBack_mark s s' hlink p cfi
      by_cases hb : cfi.breaks
      · rw [scan_breaks hb, scan_breaks (breaks_mark.2 hb)]
        simp only [reduceCtorEq, false_implies, Option.some.injEq, Bool.not_eq_false', true_and]
        exact hback
      · rw [scan_cons hb, scan_cons (mt breaks_mark.1 hb)]
        cases hc : comesBack s' (if p cfi then cfi.setNonreturn else cfi) with
        | false => exact ⟨fun _ => rfl, fun h => by cases h⟩
        | true =>
          rw [hback hc]
          exact ih
    | _ => exact ih

theorem not_breaks_of_not_isJump {cfi : ControlFlowInstruction} (h : (Instruction.controlFlow cfi).isJump = false) :
    ¬ cfi.breaks := by
  rintro ⟨hm, -⟩
  simp [Instruction.isJump, hm] at h

/-- Without jumps the loop gets to the last instruction, or stops before. -/
theorem scan_append {init : List Instruction} (hinit : ∀ i ∈ init, i.isJump = false) (last : Instruction) :
    scan s (init ++ [last]) = (scan s init).bind fun _ => scan s [last] := by
  induction init with
  | nil => rfl
  | cons i init ih =>
    have hih := ih fun i hi => hinit i (List.mem_cons_of_mem _ hi)
    cases i with
    | controlFlow cfi =>
      have hb := not_breaks_of_not_isJump (hinit _ List.mem_cons_self)
      rw [List.cons_append, scan_cons hb, scan_cons hb]
      split
      · exact hih
      · rfl
    | _ => exact hih

theorem scan_block (b : Block) : scan s b.instructions = (scan s b.init).bind fun _ => scan s [b.last] :=
  scan_append b.jumpsLast b.last

end Scan

/-! ## Links -/

section Links

variable {s s' : State} {f : Function}

theorem forwardLinks_mark_subset (p : Nat → Nat → ControlFlowInstruction → Bool) (f : Function) (n : Nat) :
    (f.mark p).forwardLinks n ⊆ f.forwardLinks n := by
  intro m hm
  unfold Function.forwardLinks at hm ⊢
  rw [Function.getElem?_mark, Function.length_mark] at hm
  cases hb : f.blocks[n]? with
  | none => simp [hb] at hm
  | some b =>
    simp only [hb, Option.map_some, Block.mark, jumpLinks_mark] at hm ⊢
    rcases fallThrough_mark (p n b.init.length) b.last with heq | ⟨heq, -⟩
    · rwa [heq] at hm
    · rw [heq] at hm
      simp only [Bool.false_eq_true, if_false, List.append_nil, List.mem_filter] at hm ⊢
      exact ⟨List.mem_append_left _ hm.1, hm.2⟩

/-- Where the search goes on, marks have taken no link away. -/
theorem forwardLinks_mark (p : Nat → Nat → ControlFlowInstruction → Bool) {n : Nat}
    (h : ¬ Stops s (f.mark p) n) : (f.mark p).forwardLinks n = f.forwardLinks n := by
  unfold Function.forwardLinks
  rw [Function.getElem?_mark, Function.length_mark]
  cases hb : f.blocks[n]? with
  | none => rfl
  | some b =>
    simp only [Option.map_some, Block.mark, jumpLinks_mark]
    rcases fallThrough_mark (p n b.init.length) b.last with heq | ⟨-, cfi, hlast, hm, hr⟩
    · rw [heq]
    · -- a marked call at the end stops the search
      refine absurd ⟨b.mark (p n), by rw [Function.getElem?_mark, hb]; rfl, ?_⟩ h
      have hb' : ¬ cfi.breaks := fun hc => by rw [hc.1] at hm; cases hm
      have hback : comesBack s cfi = false := by simp [comesBack, hr]
      rw [scan_block]
      change (scan s (b.mark (p n)).init).bind (fun _ => scan s [b.last.mark (p n b.init.length)]) = none
      rw [hlast, scan_cons hb', hback]
      cases scan s (b.mark (p n)).init <;> rfl

theorem Stops.mono (hlink : ∀ t, hasLinkToNeverReturn s t → hasLinkToNeverReturn s' t)
    (p : Nat → Nat → ControlFlowInstruction → Bool) {n : Nat} (h : Stops s f n) : Stops s' (f.mark p) n := by
  obtain ⟨b, hb, hs⟩ := h
  refine ⟨b.mark (p n), by rw [Function.getElem?_mark, hb]; rfl, ?_⟩
  exact (scan_mono hlink (b.markedBy_mark (p n))).1 hs

theorem WayOut.mono (hlink : ∀ t, hasLinkToNeverReturn s t → hasLinkToNeverReturn s' t)
    (p : Nat → Nat → ControlFlowInstruction → Bool) {n : Nat} (h : WayOut s' (f.mark p) n) : WayOut s f n := by
  refine Escapes.imp (W := fun _ => True) trivial (fun _ _ _ _ => trivial) ?_ ?_ ?_ h
  · intro n _ hs
    exact hs.mono hlink p
  · intro n m _ hns hm
    exact forwardLinks_mark_subset p f n hm
  · intro n _ hns hl
    rcases hl with hl | ⟨b', hb', hscan⟩
    · exact .inl ((forwardLinks_mark p hns).symm.trans hl)
    · rw [Function.getElem?_mark, Option.map_eq_some_iff] at hb'
      obtain ⟨b, hb, rfl⟩ := hb'
      exact .inr ⟨b, hb, (scan_mono hlink (b.markedBy_mark (p n))).2 hscan⟩

end Links

end Egalito.NonReturn
