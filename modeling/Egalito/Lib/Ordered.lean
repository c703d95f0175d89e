import Mathlib.Data.Prod.Lex
import Mathlib.Data.List.Lex
import Mathlib.Data.List.Nodup
import Mathlib.Order.WithBot
import Mathlib.Tactic
/-!
# Ordered lists, numberings and buckets

Insertion at the upper bound of an element into a list that is ordered by a
rank, the numbering of a list by a counter, and the grouping of a list into
buckets.
-/

namespace Egalito.Lib

variable {α β : Type}

/-! ## Insertion at the upper bound -/

/-- In front of the first greater element. -/
def insertUpper (lt : α → α → Bool) (x : α) (l : List α) : List α :=
  l.takeWhile (fun y => !lt x y) ++ x :: l.dropWhile (fun y => !lt x y)

theorem insertUpper_perm (lt : α → α → Bool) (x : α) (l : List α) : (insertUpper lt x l).Perm (x :: l) := by
  unfold insertUpper
  refine List.perm_middle.trans (List.Perm.cons x ?_)
  rw [List.takeWhile_append_dropWhile]

theorem insertUpper_map (lt : α → α → Bool) (lt' : β → β → Bool) (f : α → β) {x : α} {l : List α}
    (h : ∀ y ∈ l, lt' (f x) (f y) = lt x y) : (insertUpper lt x l).map f = insertUpper lt' (f x) (l.map f) := by
  induction l with
  | nil => rfl
  | cons y l ih =>
    have ih := ih fun z hz => h z (List.mem_cons_of_mem y hz)
    unfold insertUpper at ih ⊢
    cases hy : lt x y with
    | true => simp [hy, h y]
    | false => simpa [hy, h y] using ih

section Ranked

variable [LinearOrder β] {lt : α → α → Bool} (rank : α → β) (hlt : ∀ a b, lt a b = true ↔ rank a < rank b)
include hlt

/-- An ordered list stays so when no element has the rank of the new one. -/
theorem insertUpper_ordered {x : α} {l : List α} (hl : l.Pairwise fun a b => rank a < rank b)
    (hx : ∀ y ∈ l, rank y ≠ rank x) : (insertUpper lt x l).Pairwise fun a b => rank a < rank b := by
  induction l with
  | nil => simp [insertUpper]
  | cons y l ih =>
    rw [List.pairwise_cons] at hl
    have hxy := hx y List.mem_cons_self
    cases hcase : lt x y with
    | true =>
      have hlt' := (hlt x y).1 hcase
      have : insertUpper lt x (y :: l) = x :: y :: l := by simp [insertUpper, hcase]
      rw [this, List.pairwise_cons, List.pairwise_cons]
      refine ⟨fun z hz => ?_, hl⟩
      rcases List.mem_cons.1 hz with rfl | hz
      · exact hlt'
      · exact hlt'.trans (hl.1 z hz)
    | false =>
      have hyx : rank y < rank x := by
        rcases lt_trichotomy (rank y) (rank x) with h | h | h
        · exact h
        · exact absurd h hxy
        · rw [(hlt x y).2 h] at hcase
          cases hcase
      have : insertUpper lt x (y :: l) = y :: insertUpper lt x l := by simp [insertUpper, hcase]
      rw [this, List.pairwise_cons]
      refine ⟨fun z hz => ?_, ih hl.2 fun z hz => hx z (List.mem_cons_of_mem y hz)⟩
      rcases List.mem_cons.1 ((insertUpper_perm lt x l).mem_iff.1 hz) with rfl | hz
      · exact hyx
      · exact hl.1 z hz

end Ranked

/-- Two orders of the same elements by increasing rank are one. -/
theorem eq_of_perm_of_ordered [LinearOrder β] (rank : α → β) {l l' : List α} (hperm : l.Perm l')
    (hl : l.Pairwise fun a b => rank a < rank b) (hl' : l'.Pairwise fun a b => rank a < rank b) : l = l' :=
  hperm.eq_of_pairwise (fun _ _ _ _ h h' => absurd (h.trans h') (lt_irrefl _)) hl hl'

/-- Where the elements with a property come first, their number is the index of the first
one without it. -/
theorem lt_countP_iff {p : α → Bool} {l : List α} (hl : l.Pairwise fun a b => p b = true → p a = true) {i : Nat} {x : α}
    (hx : l[i]? = some x) : i < l.countP p ↔ p x = true := by
  induction l generalizing i with
  | nil => simp at hx
  | cons y l ih =>
    rw [List.pairwise_cons] at hl
    cases hy : p y with
    | true =>
      rw [List.countP_cons_of_pos hy]
      cases i with
      | zero =>
        cases hx
        simp [hy]
      | succ i => rw [Nat.add_lt_add_iff_right, ih hl.2 hx]
    | false =>
      have hnone : ∀ z ∈ l, ¬ p z = true := fun z hz h => by
        rw [hl.1 z hz h] at hy
        cases hy
      have hzero : (y :: l).countP p = 0 := by
        rw [List.countP_eq_zero]
        intro z hz
        rcases List.mem_cons.1 hz with rfl | hz
        · simp [hy]
        · exact hnone z hz
      rw [hzero]
      refine iff_of_false (Nat.not_lt_zero i) fun h => ?_
      rcases List.mem_cons.1 (List.mem_of_getElem? hx) with rfl | hz
      · rw [hy] at h
        cases h
      · exact hnone x hz h

/-! ## Numbering -/

/-- The counter of a loop that stores it for every element; the last one stays. -/
def numbered [DecidableEq α] (l : List α) : α → Option Nat :=
  (l.foldl (fun (acc : (α → Option Nat) × Nat) x => (Function.update acc.1 x (some acc.2), acc.2 + 1))
    (fun _ => none, 0)).1

section Numbering

variable [DecidableEq α] {l r : List α} {x : α}

theorem numbered_concat (l : List α) (x : α) : numbered (l ++ [x]) = Function.update (numbered l) x (some l.length) := by
  suffices ∀ (l : List α) m n, (l.foldl (fun (acc : (α → Option Nat) × Nat) x =>
      (Function.update acc.1 x (some acc.2), acc.2 + 1)) (m, n)).2 = n + l.length by
    unfold numbered
    rw [List.foldl_append, List.foldl_cons, List.foldl_nil, this, Nat.zero_add]
  intro l
  induction l with
  | nil => simp
  | cons y l ih =>
    intro m n
    rw [List.foldl_cons, ih, List.length_cons]
    omega

theorem numbered_eq_none : numbered l x = none ↔ x ∉ l := by
  induction l using List.reverseRecOn with
  | nil => simp [numbered]
  | append_singleton l y ih =>
    rw [numbered_concat]
    by_cases hxy : x = y
    · simp [hxy]
    · rw [Function.update_of_ne hxy, ih]
      simp [hxy]

theorem getElem?_of_numbered {i : Nat} (h : numbered l x = some i) : l[i]? = some x := by
  induction l using List.reverseRecOn with
  | nil => simp [numbered] at h
  | append_singleton l y ih =>
    rw [numbered_concat] at h
    by_cases hxy : x = y
    · subst hxy
      rw [Function.update_self] at h
      cases h
      simp
    · rw [Function.update_of_ne hxy] at h
      have := ih h
      rw [List.getElem?_append_left (List.getElem?_eq_some_iff.1 this).1, this]

theorem numbered_middle (hx : x ∉ r) : numbered (l ++ x :: r) x = some l.length := by
  induction r using List.reverseRecOn with
  | nil => rw [numbered_concat, Function.update_self]
  | append_singleton r y ih =>
    rw [List.mem_append, not_or, List.mem_singleton] at hx
    rw [← List.cons_append, ← List.append_assoc, numbered_concat, Function.update_of_ne hx.2, ih hx.1]

theorem numbered_getElem (hl : l.Nodup) {i : Nat} (hi : i < l.length) : numbered l l[i] = some i := by
  have hsplit : l = l.take i ++ l[i] :: l.drop (i + 1) := by
    rw [← List.drop_eq_getElem_cons hi, List.take_append_drop]
  have hnot : l[i] ∉ l.drop (i + 1) := by
    rw [hsplit] at hl
    exact (List.nodup_cons.1 (List.nodup_append.1 hl).2.1).1
  have hnum := numbered_middle (l := l.take i) hnot
  rw [← hsplit, List.length_take_of_le hi.le] at hnum
  exact hnum

end Numbering

/-- An element of a list with one more is the last one, or an element of the list. -/
theorem concat_eq_middle {l b a : List α} {x y : α} (h : l ++ [x] = b ++ y :: a) :
    (l = b ∧ x = y) ∨ ∃ a', l = b ++ y :: a' := by
  rcases List.eq_nil_or_concat a with rfl | ⟨a, z, rfl⟩
  · obtain ⟨hb, hy⟩ := List.append_inj' h rfl
    exact Or.inl ⟨hb, by simpa using hy⟩
  · rw [List.concat_eq_append, ← List.cons_append, ← List.append_assoc] at h
    exact Or.inr ⟨a, (List.append_inj' h rfl).1⟩

/-- Where a kept element stands in the filtered list. -/
theorem getElem?_filter_countP {p : α → Bool} {l : List α} {i : Nat} {x : α} (hx : l[i]? = some x) (hp : p x = true) :
    (l.filter p)[(l.take i).countP p]? = some x := by
  induction l generalizing i with
  | nil => simp at hx
  | cons y l ih =>
    cases i with
    | zero =>
      obtain rfl : y = x := by simpa using hx
      simp [hp]
    | succ i =>
      rw [List.getElem?_cons_succ] at hx
      rw [List.take_succ_cons]
      by_cases hy : p y = true
      · rw [List.filter_cons_of_pos hy, List.countP_cons_of_pos hy, List.getElem?_cons_succ, ih hx]
      · rw [List.filter_cons_of_neg hy, List.countP_cons_of_neg hy, ih hx]

section Index

variable [BEq α] [LawfulBEq α] {l r : List α} {x : α}

theorem idxOf?_append_right (hx : x ∉ l) : (l ++ r).idxOf? x = (r.idxOf? x).map (l.length + ·) := by
  have hnone : l.findIdx? (· == x) = none := List.findIdx?_eq_none_iff.2 fun y hy => by
    simpa using fun he : y = x => hx (he ▸ hy)
  unfold List.idxOf?
  rw [List.findIdx?_append, hnone, Option.none_or]
  congr 1
  funext i
  exact Nat.add_comm ..

theorem idxOf?_append_left (hx : x ∉ r) : (l ++ r).idxOf? x = l.idxOf? x := by
  have hnone : r.findIdx? (· == x) = none := List.findIdx?_eq_none_iff.2 fun y hy => by
    simpa using fun he : y = x => hx (he ▸ hy)
  unfold List.idxOf?
  rw [List.findIdx?_append, hnone, Option.map_none, Option.or_none]

theorem idxOf?_getElem (hl : l.Nodup) {i : Nat} (hi : i < l.length) : l.idxOf? l[i] = some i := by
  rw [List.idxOf?_eq_some_iff]
  refine ⟨hi, rfl, fun j hj he => ?_⟩
  have := (List.Nodup.getElem_inj_iff hl).1 he
  omega

end Index

/-! ## Buckets -/

section Buckets

variable {n : Nat} {f : α → Nat} {l : List α}

/-- The elements of a list, grouped by `f x % n` in the order of the list. -/
def buckets (n : Nat) (f : α → Nat) (l : List α) : List (List α) :=
  (List.range n).map fun b => l.filter fun x => f x % n = b

@[simp]
theorem length_buckets : (buckets n f l).length = n := by simp [buckets]

theorem getElem?_buckets {b : Nat} (hb : b < n) : (buckets n f l)[b]? = some (l.filter fun x => f x % n = b) := by
  simp [buckets, hb]

theorem buckets_nil : buckets n f [] = List.replicate n [] := by
  have : buckets n f [] = (List.range n).map fun _ => [] := rfl
  rw [this, List.map_const', List.length_range]

/-- A loop that pushes every element into its bucket makes the buckets. -/
theorem buckets_concat (l : List α) (x : α) :
    buckets n f (l ++ [x]) = (buckets n f l).modify (f x % n) (· ++ [x]) := by
  refine List.ext_getElem? fun b => ?_
  rw [List.getElem?_modify]
  by_cases hb : b < n
  · rw [getElem?_buckets hb, getElem?_buckets hb, List.filter_append]
    by_cases hx : f x % n = b
    · simp [hx]
    · simp [hx]
  · rw [List.getElem?_eq_none (by simpa using hb), List.getElem?_eq_none (by simpa using hb)]
    rfl

theorem foldl_modify_buckets (l : List α) :
    l.foldl (fun bs x => bs.modify (f x % bs.length) (· ++ [x])) (List.replicate n []) = buckets n f l := by
  induction l using List.reverseRecOn with
  | nil => rw [buckets_nil]; rfl
  | append_singleton l x ih =>
    rw [List.foldl_append, ih, List.foldl_cons, List.foldl_nil, length_buckets, buckets_concat]

theorem buckets_map {γ : Type} {g : γ → α} (l : List γ) :
    buckets n f (l.map g) = (buckets n (f ∘ g) l).map (List.map g) := by
  unfold buckets
  rw [List.map_map]
  refine List.map_congr_left fun b _ => ?_
  rw [Function.comp_apply, List.filter_map]
  rfl

theorem flatten_modify_perm {bs : List (List α)} {i : Nat} (hi : i < bs.length) (x : α) :
    (bs.modify i (· ++ [x])).flatten.Perm (bs.flatten ++ [x]) := by
  have hsplit : bs.flatten = (bs.take i).flatten ++ (bs[i] ++ (bs.drop (i + 1)).flatten) := by
    rw [← List.flatten_cons, ← List.flatten_append, ← List.drop_eq_getElem_cons hi, List.take_append_drop]
  rw [List.modify_eq_take_cons_drop hi, hsplit, List.flatten_append, List.flatten_cons, List.append_assoc,
    List.append_assoc, List.append_assoc]
  exact (List.perm_append_comm.append_left _).append_left _

theorem flatten_buckets_perm (hn : 0 < n) (l : List α) : (buckets n f l).flatten.Perm l := by
  induction l using List.reverseRecOn with
  | nil => simp [buckets_nil]
  | append_singleton l x ih =>
    rw [buckets_concat]
    exact (flatten_modify_perm (by simpa using Nat.mod_lt _ hn) x).trans (ih.append_right [x])

end Buckets

/-! ## Pairs -/

/-- A relation of each element to all behind it. -/
theorem pairwise_iff_split {α : Type} {R : α → α → Prop} {l : List α} :
    l.Pairwise R ↔ ∀ front x back, l = front ++ x :: back → ∀ y ∈ back, R x y := by
  constructor
  · rintro h front x back rfl y hy
    rw [List.pairwise_append, List.pairwise_cons] at h
    exact h.2.1.1 y hy
  · intro h
    induction l with
    | nil => exact .nil
    | cons x l ih =>
      refine .cons (h [] x l rfl) (ih fun front z back hl => ?_)
      exact h (x :: front) z back (by rw [hl]; rfl)

/-! ## The first match -/

/-- In a list in order, the first match is the least one. -/
theorem find?_eq_some_iff_least {α β : Type} [Preorder β] (key : α → β) {p : α → Bool} {l : List α} {x : α}
    (hl : l.Pairwise fun x y => key x < key y) :
    l.find? p = some x ↔ x ∈ l ∧ p x = true ∧ ∀ y ∈ l, p y = true → key x ≤ key y := by
  induction l with
  | nil => simp
  | cons z l ih =>
    obtain ⟨hz, hl⟩ := List.pairwise_cons.1 hl
    by_cases hp : p z = true
    · rw [List.find?_cons_of_pos hp, Option.some.injEq]
      constructor
      · rintro rfl
        exact ⟨List.mem_cons_self, hp, List.forall_mem_cons.2 ⟨fun _ => le_rfl, fun y hy _ => (hz y hy).le⟩⟩
      · rintro ⟨hx, -, hleast⟩
        rcases List.mem_cons.1 hx with rfl | hx
        · rfl
        · exact absurd (hleast z List.mem_cons_self hp) (hz x hx).not_ge
    · rw [List.find?_cons_of_neg hp, ih hl]
      constructor
      · rintro ⟨hx, hpx, hleast⟩
        exact ⟨List.mem_cons_of_mem _ hx, hpx, List.forall_mem_cons.2 ⟨fun h => absurd h hp, hleast⟩⟩
      · rintro ⟨hx, hpx, hleast⟩
        refine ⟨(List.mem_cons.1 hx).resolve_left ?_, hpx, fun y hy => hleast y (List.mem_cons_of_mem _ hy)⟩
        rintro rfl
        exact hp hpx

/-- A search for what is at one side of a point or at the point itself, where that comes first. -/
theorem find?_or_eq_some_iff {α β : Type} [Preorder β] (key : α → β) {side inside : α → Bool} {l : List α} {x : α}
    (hl : l.Pairwise fun x y => key x < key y)
    (hone : ∀ x ∈ l, ∀ y ∈ l, inside x = true → inside y = true → x = y)
    (hfirst : ∀ x ∈ l, ∀ y ∈ l, inside x = true → side y = true → key x < key y) :
    l.find? (fun x => side x || inside x) = some x ↔
      (x ∈ l ∧ inside x = true) ∨ (∀ y ∈ l, inside y = false) ∧ l.find? side = some x := by
  simp only [find?_eq_some_iff_least key hl, Bool.or_eq_true]
  constructor
  · rintro ⟨hx, hp, hleast⟩
    by_cases hin : inside x = true
    · exact .inl ⟨hx, hin⟩
    · have hside := hp.resolve_right hin
      refine .inr ⟨fun y hy => Bool.eq_false_iff.2 fun hyin => ?_, hx, hside, fun y hy hyside => hleast y hy (.inl hyside)⟩
      exact (hfirst y hy x hx hyin hside).not_ge (hleast y hy (.inr hyin))
  · rintro (⟨hx, hin⟩ | ⟨hnone, hx, hside, hleast⟩)
    · refine ⟨hx, .inr hin, fun y hy hyp => ?_⟩
      rcases hyp with hyside | hyin
      · exact (hfirst x hx y hy hin hyside).le
      · rw [hone y hy x hx hyin hin]
    · refine ⟨hx, .inl hside, fun y hy hyp => hleast y hy (hyp.resolve_right ?_)⟩
      rw [hnone y hy]
      exact Bool.false_ne_true

end Egalito.Lib
