import Egalito.Lib.Align
import Egalito.Lib.Image
/-!
# Pieces with gaps

Pieces that are written in order, each behind filling up to its position.
`Spaced` says that no piece begins before the one in front of it ends; then the
filling is all that stands between them.
-/

namespace Egalito.Lib

variable {α β : Type} {pos len : α → Nat}

/-- Each piece begins at or behind the end of the one before, and the first at or behind `start`. -/
def Spaced (pos len : α → Nat) : Nat → List α → Prop
  | _, [] => True
  | start, x :: l => start ≤ pos x ∧ Spaced pos len (pos x + len x) l

/-- Where the last piece ends. -/
def endOf (pos len : α → Nat) : Nat → List α → Nat
  | start, [] => start
  | _, x :: l => endOf pos len (pos x + len x) l

variable {start n : Nat} {l l' : List α} {x y : α}

theorem spaced_append : Spaced pos len start (l ++ l') ↔
    Spaced pos len start l ∧ Spaced pos len (endOf pos len start l) l' := by
  induction l generalizing start with
  | nil => simp [Spaced, endOf]
  | cons x l ih => rw [List.cons_append, Spaced, Spaced, ih, endOf, and_assoc]

theorem endOf_append : endOf pos len start (l ++ l') = endOf pos len (endOf pos len start l) l' := by
  induction l generalizing start with
  | nil => rfl
  | cons x l ih => rw [List.cons_append, endOf, endOf, ih]

theorem le_endOf (h : Spaced pos len start l) : start ≤ endOf pos len start l := by
  induction l generalizing start with
  | nil => exact le_rfl
  | cons x l ih => exact h.1.trans ((Nat.le_add_right _ _).trans (ih h.2))

theorem spaced_congr (start : Nat) {pos' len' : α → Nat} (h : ∀ x ∈ l, pos x = pos' x ∧ len x = len' x) :
    (Spaced pos len start l ↔ Spaced pos' len' start l) ∧ endOf pos len start l = endOf pos' len' start l := by
  induction l generalizing start with
  | nil => exact ⟨Iff.rfl, rfl⟩
  | cons x l ih =>
    rw [List.forall_mem_cons] at h
    rw [Spaced, Spaced, endOf, endOf, h.1.1, h.1.2]
    exact ⟨and_congr_right fun _ => (ih _ h.2).1, (ih _ h.2).2⟩

theorem Spaced.mono {m : Nat} (h : Spaced pos len n l) (hm : m ≤ n) : Spaced pos len m l := by
  cases l with
  | nil => trivial
  | cons x l => exact ⟨hm.trans h.1, h.2⟩

/-- A piece lies between the start and the end. -/
theorem within_of_spaced (h : Spaced pos len start l) (hx : x ∈ l) :
    start ≤ pos x ∧ pos x + len x ≤ endOf pos len start l := by
  induction l generalizing start with
  | nil => cases hx
  | cons y l ih =>
    rcases List.mem_cons.1 hx with rfl | hx
    · exact ⟨h.1, le_endOf h.2⟩
    · obtain ⟨hle, hend⟩ := ih h.2 hx
      exact ⟨h.1.trans ((Nat.le_add_right _ _).trans hle), hend⟩

theorem pairwise_of_spaced (h : Spaced pos len start l) : l.Pairwise fun x y => pos x + len x ≤ pos y := by
  induction l generalizing start with
  | nil => exact .nil
  | cons x l ih => exact List.pairwise_cons.2 ⟨fun y hy => (within_of_spaced h.2 hy).1, ih h.2⟩

/-- Of two pieces one ends before the other begins. -/
theorem apart_of_spaced (h : Spaced pos len start l) (hx : x ∈ l) (hy : y ∈ l) (hxy : x ≠ y) :
    pos x + len x ≤ pos y ∨ pos y + len y ≤ pos x := by
  induction l generalizing start with
  | nil => cases hx
  | cons z l ih =>
    rcases List.mem_cons.1 hx with rfl | hxl
    · exact .inl (within_of_spaced h.2 ((List.mem_cons.1 hy).resolve_left hxy.symm)).1
    · rcases List.mem_cons.1 hy with rfl | hyl
      · exact .inr (within_of_spaced h.2 hxl).1
      · exact ih h.2 hxl hyl

/-! ## The bytes -/

variable {emit : α → List β} {fill : β}

/-- The pieces with filling in front of them. -/
def padded (pos : α → Nat) (emit : α → List β) (fill : β) : Nat → List α → List β
  | _, [] => []
  | start, x :: l =>
    List.replicate (pos x - start) fill ++ (emit x ++ padded pos emit fill (pos x + (emit x).length) l)

theorem length_padded (h : Spaced pos (fun x => (emit x).length) start l) :
    start + (padded pos emit fill start l).length = endOf pos (fun x => (emit x).length) start l := by
  induction l generalizing start with
  | nil => rfl
  | cons x l ih =>
    have hrest := ih h.2
    have hle := h.1
    rw [padded, endOf, ← hrest]
    simp only [List.length_append, List.length_replicate]
    omega

theorem padded_append (h : Spaced pos (fun x => (emit x).length) start l) :
    padded pos emit fill start (l ++ l') =
      padded pos emit fill start l ++ padded pos emit fill (endOf pos (fun x => (emit x).length) start l) l' := by
  induction l generalizing start with
  | nil => rfl
  | cons x l ih => rw [List.cons_append, padded, padded, ih h.2, endOf, List.append_assoc, List.append_assoc]

/-- A piece stands at its position. -/
theorem drop_take_of_spaced (h : Spaced pos (fun x => (emit x).length) start l) (hx : x ∈ l) :
    ((padded pos emit fill start l).drop (pos x - start)).take (emit x).length = emit x := by
  induction l generalizing start with
  | nil => cases hx
  | cons y l ih =>
    have hle := h.1
    have hrest : Spaced pos (fun x => (emit x).length) (pos y + (emit y).length) l := h.2
    rw [padded, ← List.append_assoc]
    by_cases hxl : x ∈ l
    · have hin := (within_of_spaced hrest hxl).1
      have hfront : (List.replicate (pos y - start) fill ++ emit y).length = pos y - start + (emit y).length := by
        rw [List.length_append, List.length_replicate]
      have hskip : pos x - start = (List.replicate (pos y - start) fill ++ emit y).length +
          (pos x - (pos y + (emit y).length)) := by omega
      rw [hskip, List.drop_append, List.drop_eq_nil_of_le (by omega), List.nil_append, Nat.add_sub_cancel_left]
      exact ih hrest hxl
    · obtain rfl : x = y := (List.mem_cons.1 hx).resolve_right hxl
      rw [List.append_assoc, List.drop_left' List.length_replicate, List.take_left]

/-- A byte belongs to a piece, or it is filling. -/
theorem piece_or_fill_of_spaced (h : Spaced pos (fun x => (emit x).length) start l)
    (hn : n < (padded pos emit fill start l).length) :
    (∃ x ∈ l, pos x ≤ start + n ∧ start + n < pos x + (emit x).length) ∨
      (padded pos emit fill start l)[n]? = some fill := by
  induction l generalizing start n with
  | nil => exact absurd hn (Nat.not_lt_zero n)
  | cons y l ih =>
    have hle := h.1
    rw [padded, List.length_append, List.length_append, List.length_replicate] at hn
    rw [padded]
    by_cases hfill : n < pos y - start
    · refine .inr ?_
      rw [List.getElem?_append_left (by rw [List.length_replicate]; exact hfill), List.getElem?_replicate_of_lt hfill]
    by_cases hy : n < pos y - start + (emit y).length
    · exact .inl ⟨y, List.mem_cons_self, by omega, by omega⟩
    · have hbound : n - (pos y - start) - (emit y).length <
          (padded pos emit fill (pos y + (emit y).length) l).length := by omega
      have hshift : pos y + (emit y).length + (n - (pos y - start) - (emit y).length) = start + n := by omega
      have hrest := ih h.2 hbound
      rw [hshift] at hrest
      rcases hrest with ⟨x, hx, hpiece⟩ | hrest
      · exact .inl ⟨x, List.mem_cons_of_mem _ hx, hpiece⟩
      · refine .inr ?_
        rw [List.getElem?_append_right (by rw [List.length_replicate]; omega), List.length_replicate,
          List.getElem?_append_right (by omega)]
        exact hrest

/-! ## Placing -/

/-- The end of steps that each round up to an alignment and then take some space. -/
def layoutEnd (start : Nat) (steps : List (Nat × Nat)) : Nat :=
  steps.foldl (fun p step => roundUp step.1 p + step.2) start

theorem layoutEnd_append (start : Nat) (steps steps' : List (Nat × Nat)) :
    layoutEnd start (steps ++ steps') = layoutEnd (layoutEnd start steps) steps' := List.foldl_append

theorem le_layoutEnd {steps : List (Nat × Nat)} (h : ∀ step ∈ steps, 0 < step.1) : start ≤ layoutEnd start steps := by
  induction steps generalizing start with
  | nil => exact le_rfl
  | cons step steps ih =>
    rw [List.forall_mem_cons] at h
    exact (le_roundUp h.1).trans ((Nat.le_add_right _ _).trans (ih h.2))

/-- Without alignment the order of the steps does not matter. -/
theorem layoutEnd_one {ι : Type} (size : ι → Nat) (start : Nat) (l : List ι) :
    layoutEnd start (l.map fun i => (1, size i)) = start + (l.map size).sum := by
  induction l generalizing start with
  | nil => rfl
  | cons i l ih =>
    rw [List.map_cons, layoutEnd, List.foldl_cons, ← layoutEnd, ih, roundUp_one, List.map_cons, List.sum_cons, Nat.add_assoc]

end Egalito.Lib
