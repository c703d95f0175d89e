import Egalito.Lib.Layout
/-!
# Edits of labelled code

Code with labels in which the instruction at a label is replaced by others, and
code that stands for other code piece by piece: a piece begins with the label of
its instruction, and the labels behind that are new.
-/

namespace Egalito.Lib

variable {ι α : Type} [DecidableEq ι] {p : ι} {s : α} {A B : List (ι × α)}

/-! ## One place -/

def edit (point : ι) (f : ι × α → List (ι × α)) (block : List (ι × α)) : List (ι × α) :=
  block.flatMap fun x => if x.1 = point then f x else [x]

theorem edit_away {f : ι × α → List (ι × α)} (hA : ∀ y ∈ A, y.1 ≠ p) : edit p f A = A := by
  induction A with
  | nil => rfl
  | cons y A ih =>
    rw [edit, List.flatMap_cons, if_neg (hA y List.mem_cons_self), ← edit, ih fun z hz => hA z (List.mem_cons_of_mem _ hz)]
    rfl

theorem edit_append (f : ι × α → List (ι × α)) : edit p f (A ++ B) = edit p f A ++ edit p f B := List.flatMap_append

theorem edit_point {f : ι × α → List (ι × α)} (hA : ∀ y ∈ A, y.1 ≠ p) (hB : ∀ y ∈ B, y.1 ≠ p) :
    edit p f (A ++ (p, s) :: B) = A ++ (f (p, s) ++ B) := by
  rw [edit_append, edit_away hA, edit, List.flatMap_cons, if_pos rfl, ← edit, edit_away hB]

theorem flatten_edit (f : ι × α → List (ι × α)) (blocks : List (List (ι × α))) :
    (blocks.map (edit p f)).flatten = edit p f blocks.flatten := by
  induction blocks with
  | nil => rfl
  | cons block blocks ih => rw [List.map_cons, List.flatten_cons, List.flatten_cons, ih, edit_append]

/-! ## Pieces -/

/-- `P x rest piece` says that `piece` stands for `x` in front of `rest`. -/
inductive Pieces (P : ι × α → List (ι × α) → List (ι × α) → Prop) : List (ι × α) → List (ι × α) → Prop
  | nil : Pieces P [] []
  | cons {x code piece code'} : P x code piece → Pieces P code code' → Pieces P (x :: code) (piece ++ code')

/-- The labels of a piece: the one that was there, and new ones. -/
structure Labelled (free : ι → Prop) (x : ι × α) (piece : List (ι × α)) : Prop where
  first : piece.head?.map (·.1) = some x.1
  others : ∀ y ∈ piece.tail, free y.1

variable {P Q : ι × α → List (ι × α) → List (ι × α) → Prop} {free : ι → Prop} {x : ι × α}
  {code code' piece rest : List (ι × α)}

omit [DecidableEq ι]

theorem pieces_append : Pieces P (A ++ B) code' ↔ ∃ A' B', code' = A' ++ B' ∧
    Pieces (fun x rest piece => P x (rest ++ B) piece) A A' ∧ Pieces P B B' := by
  induction A generalizing code' with
  | nil =>
    constructor
    · exact fun h => ⟨[], code', rfl, .nil, h⟩
    · rintro ⟨A', B', rfl, hA, hB⟩
      cases hA
      exact hB
  | cons y A ih =>
    constructor
    · rintro (_ | @⟨_, _, first, code'', hy, hA⟩)
      obtain ⟨A', B', rfl, hA', hB'⟩ := ih.1 hA
      exact ⟨first ++ A', B', by simp, .cons hy hA', hB'⟩
    · rintro ⟨A', B', rfl, hA, hB⟩
      obtain _ | @⟨_, _, first, A'', hy, hA⟩ := hA
      rw [List.append_assoc]
      exact .cons hy (ih.2 ⟨A'', B', rfl, hA, hB⟩)

theorem Pieces.mono (h : Pieces P code code') (hPQ : ∀ x ∈ code, ∀ rest piece, P x rest piece → Q x rest piece) :
    Pieces Q code code' := by
  induction h with
  | nil => exact .nil
  | @cons x code piece code' hx _ ih =>
    exact .cons (hPQ x List.mem_cons_self _ _ hx) (ih fun y hy => hPQ y (List.mem_cons_of_mem _ hy))

section Labels

variable (hlabel : ∀ x rest piece, P x rest piece → Labelled free x piece)

include hlabel

theorem Pieces.labels (h : Pieces P code code') {y : ι × α} (hy : y ∈ code') : y.1 ∈ code.map (·.1) ∨ free y.1 := by
  induction h with
  | nil => cases hy
  | @cons x code piece code' hx _ ih =>
    rcases List.mem_append.1 hy with hy | hy
    · obtain ⟨hfirst, hothers⟩ := hlabel _ _ _ hx
      cases piece with
      | nil => cases hy
      | cons z piece =>
        rcases List.mem_cons.1 hy with rfl | hy
        · exact .inl (List.mem_cons.2 (.inl (Option.some.inj hfirst)))
        · exact .inr (hothers y hy)
    · exact (ih hy).imp_left (List.mem_cons_of_mem _)

theorem Pieces.head (h : Pieces P code code') : code'.head?.map (·.1) = code.head?.map (·.1) := by
  cases h with
  | nil => rfl
  | cons hx _ =>
    have hfirst := (hlabel _ _ _ hx).first
    rw [Option.map_eq_some_iff] at hfirst
    obtain ⟨z, hz, hzx⟩ := hfirst
    rw [List.head?_append, hz]
    exact congrArg some hzx

end Labels

end Egalito.Lib
