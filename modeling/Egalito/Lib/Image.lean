import Egalito.Lib.Ordered
/-!
# Pieces in an image

Pieces are written one behind the other. `Consecutive` says that the positions
the pieces were given are those at which they land.
-/

namespace Egalito.Lib

variable {α β : Type} {pos len : α → Nat}

/-- The pieces have the positions from `start` on, each behind the one before. -/
def Consecutive (pos len : α → Nat) : Nat → List α → Prop
  | _, [] => True
  | start, x :: l => pos x = start ∧ Consecutive pos len (start + len x) l

variable {start : Nat} {l l' : List α} {x : α}

theorem consecutive_append : Consecutive pos len start (l ++ l') ↔
    Consecutive pos len start l ∧ Consecutive pos len (start + (l.map len).sum) l' := by
  induction l generalizing start with
  | nil => simp [Consecutive]
  | cons x l ih =>
    rw [List.cons_append, Consecutive, Consecutive, ih, List.map_cons, List.sum_cons, Nat.add_assoc, and_assoc]

theorem consecutive_congr {pos' len' : α → Nat} (h : ∀ x ∈ l, pos x = pos' x ∧ len x = len' x) :
    Consecutive pos len start l ↔ Consecutive pos' len' start l := by
  induction l generalizing start with
  | nil => rfl
  | cons x l ih =>
    rw [List.forall_mem_cons] at h
    rw [Consecutive, Consecutive, h.1.1, h.1.2, ih h.2]

theorem start_le_of_consecutive (h : Consecutive pos len start l) (hx : x ∈ l) : start ≤ pos x := by
  induction l generalizing start with
  | nil => cases hx
  | cons y l ih =>
    rcases List.mem_cons.1 hx with rfl | hx
    · exact h.1.ge
    · exact (Nat.le_add_right _ _).trans (ih h.2 hx)

theorem pairwise_of_consecutive (h : Consecutive pos len start l) : l.Pairwise fun x y => pos x + len x ≤ pos y := by
  induction l generalizing start with
  | nil => exact .nil
  | cons x l ih =>
    refine List.pairwise_cons.2 ⟨fun y hy => ?_, ih h.2⟩
    rw [h.1]
    exact start_le_of_consecutive h.2 hy

/-- Of two pieces one ends before the other. -/
theorem apart_of_consecutive {y : α} (h : Consecutive pos len start l) (hx : x ∈ l) (hy : y ∈ l) (hxy : x ≠ y) :
    pos x + len x ≤ pos y ∨ pos y + len y ≤ pos x := by
  have hpair := pairwise_of_consecutive h
  obtain ⟨front, back, rfl⟩ := List.append_of_mem hx
  rw [List.pairwise_append, List.pairwise_cons] at hpair
  obtain ⟨-, ⟨hback, -⟩, hfront⟩ := hpair
  rcases List.mem_append.1 hy with hy | hy
  · exact .inr (hfront y hy x List.mem_cons_self)
  · exact .inl (hback y ((List.mem_cons.1 hy).resolve_left hxy.symm))

theorem end_le_of_consecutive (h : Consecutive pos len start l) (hx : x ∈ l) :
    pos x + len x ≤ start + (l.map len).sum := by
  induction l generalizing start with
  | nil => cases hx
  | cons y l ih =>
    rw [List.map_cons, List.sum_cons]
    rcases List.mem_cons.1 hx with rfl | hx
    · rw [h.1]
      omega
    · have := ih h.2 hx
      omega

/-- A point between the start and the end is in one of the pieces. -/
theorem exists_mem_of_consecutive (h : Consecutive pos len start l) {p : Nat} (hle : start ≤ p)
    (hlt : p < start + (l.map len).sum) : ∃ x ∈ l, pos x ≤ p ∧ p < pos x + len x := by
  induction l generalizing start with
  | nil => exact absurd hlt (Nat.not_lt_of_le hle)
  | cons x l ih =>
    rw [List.map_cons, List.sum_cons, ← Nat.add_assoc] at hlt
    by_cases hx : p < start + len x
    · exact ⟨x, List.mem_cons_self, h.1.le.trans hle, by rwa [h.1]⟩
    · obtain ⟨y, hy, hin⟩ := ih h.2 (Nat.le_of_not_lt hx) hlt
      exact ⟨y, List.mem_cons_of_mem x hy, hin⟩

/-- Pieces that consist of pieces. -/
theorem consecutive_flatMap {pos' len' : β → Nat} {parts : α → List β} (h : Consecutive pos len start l)
    (hparts : ∀ x ∈ l, Consecutive pos' len' (pos x) (parts x) ∧ ((parts x).map len').sum = len x) :
    Consecutive pos' len' start (l.flatMap parts) := by
  induction l generalizing start with
  | nil => trivial
  | cons x l ih =>
    rw [List.forall_mem_cons] at hparts
    rw [List.flatMap_cons, consecutive_append, ← h.1, hparts.1.2]
    refine ⟨hparts.1.1, ih ?_ hparts.2⟩
    rw [h.1]
    exact h.2

/-! ## The bytes -/

variable {emit : α → List β}

/-- A piece stands at its position. -/
theorem drop_take_of_consecutive (h : Consecutive pos (fun x => (emit x).length) start l) (hx : x ∈ l) :
    ((l.flatMap emit).drop (pos x - start)).take (emit x).length = emit x := by
  induction l generalizing start with
  | nil => cases hx
  | cons y l ih =>
    have hrest : Consecutive pos (fun x => (emit x).length) (start + (emit y).length) l := h.2
    rw [List.flatMap_cons]
    by_cases hxl : x ∈ l
    · have hle := start_le_of_consecutive hrest hxl
      rw [List.drop_append, List.drop_eq_nil_of_le (by omega), List.nil_append, Nat.sub_sub]
      exact ih hrest hxl
    · obtain rfl : x = y := (List.mem_cons.1 hx).resolve_right hxl
      rw [h.1, Nat.sub_self, List.drop_zero, List.take_left]

/-- Every byte belongs to a piece. -/
theorem exists_piece_of_consecutive (h : Consecutive pos (fun x => (emit x).length) start l) {n : Nat}
    (hn : n < (l.flatMap emit).length) :
    ∃ x ∈ l, pos x ≤ start + n ∧ start + n < pos x + (emit x).length ∧
      (l.flatMap emit)[n]? = (emit x)[start + n - pos x]? := by
  induction l generalizing start n with
  | nil => exact absurd hn (Nat.not_lt_zero n)
  | cons y l ih =>
    rw [List.flatMap_cons, List.length_append] at hn
    rw [List.flatMap_cons]
    by_cases hy : n < (emit y).length
    · refine ⟨y, List.mem_cons_self, by rw [h.1]; omega, by rw [h.1]; omega, ?_⟩
      rw [List.getElem?_append_left hy, h.1, Nat.add_sub_cancel_left]
    · have hrest : Consecutive pos (fun x => (emit x).length) (start + (emit y).length) l := h.2
      obtain ⟨x, hx, hle, hlt, hbyte⟩ := ih (n := n - (emit y).length) hrest (by omega)
      refine ⟨x, List.mem_cons_of_mem _ hx, by omega, by omega, ?_⟩
      rw [List.getElem?_append_right (by omega), hbyte]
      congr 1
      omega

/-- Writing the pieces in another order that goes by their positions gives the same bytes:
only pieces without bytes can share a position. -/
theorem flatMap_eq_of_sorted (h : Consecutive pos (fun x => (emit x).length) start l) (hperm : l'.Perm l)
    (hsorted : l'.Pairwise fun x y => pos x ≤ pos y) : l'.flatMap emit = l.flatMap emit := by
  have hfilter : ∀ k : List α, (k.filter fun x => emit x ≠ []).flatMap emit = k.flatMap emit := fun k => by
    induction k with
    | nil => rfl
    | cons x k ih =>
      by_cases hx : emit x = []
      · rw [List.filter_cons_of_neg (by simp [hx]), ih, List.flatMap_cons, hx, List.nil_append]
      · rw [List.filter_cons_of_pos (by simp [hx]), List.flatMap_cons, List.flatMap_cons, ih]
  have hstrict : (l.filter fun x => emit x ≠ []).Pairwise fun x y => pos x < pos y := by
    refine List.Pairwise.imp_of_mem ?_ ((pairwise_of_consecutive h).filter _)
    intro x y hx _ hle
    have hlen := List.length_pos_of_ne_nil (by simpa using (List.mem_filter.1 hx).2 : emit x ≠ [])
    omega
  have hperm' := hperm.filter fun x => decide (emit x ≠ [])
  have hnodup : ((l'.filter fun x => emit x ≠ []).map pos).Nodup :=
    ((hperm'.map pos).nodup_iff).2 (List.pairwise_map.2 (hstrict.imp fun h => h.ne))
  have hstrict' : (l'.filter fun x => emit x ≠ []).Pairwise fun x y => pos x < pos y :=
    ((hsorted.filter _).and (List.pairwise_map.1 hnodup)).imp fun h => lt_of_le_of_ne h.1 h.2
  rw [← hfilter l', ← hfilter l, eq_of_perm_of_ordered pos hperm' hstrict' hstrict]

end Egalito.Lib
