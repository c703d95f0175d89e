import Egalito.Lib.Image
/-!
# Rearranged pieces

Pieces that lie one behind the other are written in another order. The offsets
inside the pieces, read in that order, are the inverse of where each offset goes.
-/

namespace Egalito.Lib

variable {α : Type} {pos len : α → Nat}

/-- The offsets of the pieces, in the order of the list. -/
def offsets (pos len : α → Nat) (l : List α) : List Nat := l.flatMap fun x => List.range' (pos x) (len x)

theorem offsets_of_consecutive {start : Nat} {l : List α} (h : Consecutive pos len start l) :
    offsets pos len l = List.range' start (l.map len).sum := by
  induction l generalizing start with
  | nil => rfl
  | cons x l ih =>
    have hl : offsets pos len l = List.range' (start + len x) (l.map len).sum := ih h.2
    unfold offsets at hl ⊢
    rw [List.flatMap_cons, hl, h.1, List.map_cons, List.sum_cons]
    simp

theorem length_offsets (l : List α) : (offsets pos len l).length = (l.map len).sum := by
  induction l with
  | nil => rfl
  | cons x l ih =>
    unfold offsets at ih ⊢
    rw [List.flatMap_cons, List.length_append, ih, List.length_range', List.map_cons, List.sum_cons]

/-- An offset of a piece stands as far behind the piece's new start as behind its old one. -/
theorem getElem?_offsets {front back : List α} {x : α} {o : Nat} (hle : pos x ≤ o) (hlt : o < pos x + len x) :
    (offsets pos len (front ++ x :: back))[(front.map len).sum + (o - pos x)]? = some o := by
  have happend : offsets pos len (front ++ x :: back) =
      offsets pos len front ++ (List.range' (pos x) (len x) ++ offsets pos len back) := by
    unfold offsets
    rw [List.flatMap_append, List.flatMap_cons]
  rw [happend, List.getElem?_append_right (by rw [length_offsets]; omega), length_offsets, Nat.add_sub_cancel_left,
    List.getElem?_append_left (by rw [List.length_range']; omega), List.getElem?_range' (by omega)]
  congr 1
  omega

/-- A map to the places of a rearranged range is a bijection. -/
theorem bijOn_of_getElem? {l : List Nat} {n : Nat} {f : Nat → Nat} (hperm : l.Perm (List.range n))
    (hf : ∀ o < n, l[f o]? = some o) : Set.BijOn f (Set.Iio n) (Set.Iio n) := by
  have hlength : l.length = n := hperm.length_eq.trans List.length_range
  refine ⟨fun o ho => ?_, fun o ho o' ho' heq => ?_, fun k hk => ?_⟩
  · rw [Set.mem_Iio, ← hlength]
    exact (List.getElem?_eq_some_iff.1 (hf o ho)).1
  · have hsome := hf o ho
    rw [heq, hf o' ho'] at hsome
    exact (Option.some.inj hsome).symm
  · have hk' : k < l.length := hlength ▸ hk
    have ho : l[k] < n := List.mem_range.1 (hperm.mem_iff.1 (List.getElem_mem hk'))
    obtain ⟨hlt, hget⟩ := List.getElem?_eq_some_iff.1 (hf _ ho)
    have hnodup : l.Nodup := hperm.nodup_iff.2 List.nodup_range
    exact ⟨l[k], ho, (hnodup.getElem_inj_iff).1 hget⟩

end Egalito.Lib
