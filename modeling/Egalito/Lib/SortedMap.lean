import Mathlib.Data.List.Sort
import Mathlib.Tactic
/-!
# Ordered maps

A `std::map` whose values carry their keys: the values in increasing order of
their keys, one for each key. Iterators are lists of what they have before or
behind them.
-/

namespace Egalito.Lib

variable {α κ : Type} [LinearOrder κ]

structure SortedMap (key : α → κ) where
  entries : List α
  sorted : entries.Pairwise fun x y => key x < key y

namespace SortedMap

variable {key : α → κ}

def empty : SortedMap key := ⟨[], .nil⟩

/-- `map[key(x)] = x` -/
def put (m : SortedMap key) (x : α) : SortedMap key where
  entries := m.entries.filter (fun y => key y < key x) ++ x :: m.entries.filter (fun y => key x < key y)
  sorted := by
    refine List.pairwise_append.2 ⟨m.sorted.filter _, List.pairwise_cons.2 ⟨?_, m.sorted.filter _⟩, ?_⟩
    · intro z hz
      exact of_decide_eq_true (List.mem_filter.1 hz).2
    · intro y hy z hz
      have hyx := of_decide_eq_true (List.mem_filter.1 hy).2
      rcases List.mem_cons.1 hz with rfl | hz
      · exact hyx
      · exact hyx.trans (of_decide_eq_true (List.mem_filter.1 hz).2)

def erase (m : SortedMap key) (k : κ) : SortedMap key where
  entries := m.entries.filter fun y => key y ≠ k
  sorted := m.sorted.filter _

def find (m : SortedMap key) (k : κ) : Option α := m.entries.find? fun y => key y = k

/-- What is in front of `upper_bound(k)`. -/
def upTo (m : SortedMap key) (k : κ) : List α := m.entries.filter fun y => key y ≤ k

/-- What there is from `upper_bound(k)` on. -/
def above (m : SortedMap key) (k : κ) : List α := m.entries.filter fun y => k < key y

def ofList (l : List α) : SortedMap key := l.foldl put empty

variable {m : SortedMap key} {x y : α} {k : κ}

/-! ## What a map holds -/

theorem mem_put : y ∈ (m.put x).entries ↔ y = x ∨ y ∈ m.entries ∧ key y ≠ key x := by
  simp only [put, List.mem_append, List.mem_cons, List.mem_filter, decide_eq_true_eq, ne_iff_lt_or_gt]
  tauto

theorem mem_erase : y ∈ (m.erase k).entries ↔ y ∈ m.entries ∧ key y ≠ k := by
  simp [erase]

/-- A key has one value. -/
theorem eq_of_key (hx : x ∈ m.entries) (hy : y ∈ m.entries) (h : key x = key y) : x = y := by
  have hnodup : (m.entries.map key).Nodup := List.pairwise_map.2 (m.sorted.imp ne_of_lt)
  exact List.inj_on_of_nodup_map hnodup hx hy h

theorem find_eq_some_iff : m.find k = some x ↔ x ∈ m.entries ∧ key x = k := by
  constructor
  · intro h
    exact ⟨List.mem_of_find?_eq_some h, by simpa using List.find?_some h⟩
  · rintro ⟨hx, rfl⟩
    cases h : m.find (key x) with
    | none =>
      have hx := List.find?_eq_none.1 h x hx
      simp at hx
    | some y =>
      have hy : key y = key x := by simpa using List.find?_some h
      rw [eq_of_key (List.mem_of_find?_eq_some h) hx hy]

theorem mem_upTo : y ∈ m.upTo k ↔ y ∈ m.entries ∧ key y ≤ k := by simp [upTo]

theorem mem_above : y ∈ m.above k ↔ y ∈ m.entries ∧ k < key y := by simp [above]

/-- The last one put in under a key stays. -/
theorem mem_ofList (l : List α) : x ∈ (ofList l : SortedMap key).entries ↔
    ∃ front back, l = front ++ x :: back ∧ ∀ y ∈ back, key y ≠ key x := by
  induction l using List.reverseRecOn with
  | nil => simp [ofList, empty]
  | append_singleton l z ih =>
    rw [ofList, List.foldl_append, ← ofList, List.foldl_cons, List.foldl_nil, mem_put, ih]
    constructor
    · rintro (rfl | ⟨⟨front, back, rfl, hback⟩, hne⟩)
      · exact ⟨l, [], rfl, by simp⟩
      · refine ⟨front, back ++ [z], by simp, fun y hy => ?_⟩
        rcases List.mem_append.1 hy with hy | hy
        · exact hback y hy
        · rw [List.mem_singleton.1 hy]
          exact hne.symm
    · rintro ⟨front, back, heq, hback⟩
      rcases List.eq_nil_or_concat back with rfl | ⟨back, w, rfl⟩
      · exact .inl (List.append_inj_right' heq rfl |> List.singleton_inj.1).symm
      · rw [List.concat_eq_append] at heq hback
        rw [← List.cons_append, ← List.append_assoc] at heq
        obtain ⟨rfl, hw⟩ := List.append_inj' heq rfl
        obtain rfl := List.singleton_inj.1 hw
        refine .inr ⟨⟨front, back, rfl, fun y hy => hback y (List.mem_append_left _ hy)⟩, ?_⟩
        exact (hback z (by simp)).symm

/-- A key that was put in has a value. -/
theorem exists_mem_ofList (l : List α) (hx : x ∈ l) : ∃ y ∈ (ofList l : SortedMap key).entries, key y = key x := by
  induction l using List.reverseRecOn with
  | nil => cases hx
  | append_singleton l z ih =>
    rw [ofList, List.foldl_append, ← ofList, List.foldl_cons, List.foldl_nil]
    by_cases hkey : key x = key z
    · exact ⟨z, mem_put.2 (.inl rfl), hkey.symm⟩
    · have hmem : x ∈ l := (List.mem_append.1 hx).resolve_right fun h => hkey (by rw [List.mem_singleton.1 h])
      obtain ⟨y, hy, hyx⟩ := ih hmem
      exact ⟨y, mem_put.2 (.inr ⟨hy, hyx ▸ hkey⟩), hyx⟩

/-- Nothing put in behind a value that stays has its key. -/
theorem ne_of_mem_ofList {front back : List α} (h : x ∈ (ofList (front ++ x :: back) : SortedMap key).entries)
    (hback : x ∉ back) : ∀ y ∈ back, key y ≠ key x := by
  obtain ⟨front', back', heq, hne⟩ := (mem_ofList _).1 h
  rcases List.append_eq_append_iff.1 heq with ⟨t, rfl, ht⟩ | ⟨t, rfl, ht⟩
  · cases t with
    | nil =>
      obtain ⟨-, rfl⟩ := List.cons.inj ht
      exact hne
    | cons w t =>
      obtain ⟨-, rfl⟩ := List.cons.inj ht
      exact absurd (by simp) hback
  · cases t with
    | nil =>
      obtain ⟨-, rfl⟩ := List.cons.inj ht
      exact hne
    | cons w t =>
      obtain ⟨-, rfl⟩ := List.cons.inj ht
      exact absurd rfl (hne x (by simp))

/-! ## Iterators -/

/-- The element in front of an iterator has the greatest key. -/
theorem getLast?_eq_some_iff {l : List α} (hl : l.Pairwise fun x y => key x < key y) :
    l.getLast? = some x ↔ x ∈ l ∧ ∀ y ∈ l, key y ≤ key x := by
  constructor
  · intro h
    obtain ⟨front, rfl⟩ := List.getLast?_eq_some_iff.1 h
    refine ⟨by simp, fun y hy => ?_⟩
    rcases List.mem_append.1 hy with hy | hy
    · exact ((List.pairwise_append.1 hl).2.2 y hy x (List.mem_singleton_self x)).le
    · rw [List.mem_singleton.1 hy]
  · rintro ⟨hx, hmax⟩
    obtain ⟨front, last, rfl⟩ := List.eq_nil_or_concat' l |>.resolve_left (List.ne_nil_of_mem hx)
    rw [List.getLast?_concat, Option.some.injEq]
    rcases List.mem_append.1 hx with hx | hx
    · have hlt := (List.pairwise_append.1 hl).2.2 x hx last (List.mem_singleton_self last)
      exact absurd (hmax last (by simp)) hlt.not_ge
    · exact (List.mem_singleton.1 hx).symm

/-- A walk that goes on while a condition holds comes to the elements that have none against it before them. -/
theorem mem_takeWhile_iff {l : List α} (hl : l.Pairwise fun x y => key x < key y) {p : α → Bool} :
    x ∈ l.takeWhile p ↔ x ∈ l ∧ ∀ y ∈ l, key y ≤ key x → p y = true := by
  induction l with
  | nil => simp
  | cons z l ih =>
    obtain ⟨hz, hl⟩ := List.pairwise_cons.1 hl
    by_cases hp : p z = true
    · rw [List.takeWhile_cons_of_pos hp, List.mem_cons, ih hl, List.forall_mem_cons, List.mem_cons]
      constructor
      · rintro (rfl | ⟨hx, hall⟩)
        · exact ⟨.inl rfl, fun _ => hp, fun y hy hle => absurd hle (hz y hy).not_ge⟩
        · exact ⟨.inr hx, fun _ => hp, hall⟩
      · rintro ⟨rfl | hx, -, hall⟩
        · exact .inl rfl
        · exact .inr ⟨hx, hall⟩
    · rw [List.takeWhile_cons_of_neg hp]
      refine iff_of_false List.not_mem_nil ?_
      rintro ⟨hx, hall⟩
      refine hp (hall z List.mem_cons_self ?_)
      rcases List.mem_cons.1 hx with rfl | hx
      · exact le_rfl
      · exact (hz x hx).le

/-- The last elements in front of an iterator are those that few have greater keys than. -/
theorem mem_take_reverse_iff {l : List α} (hl : l.Pairwise fun x y => key x < key y) {n : Nat} :
    x ∈ l.reverse.take n ↔ x ∈ l ∧ (l.filter fun y => key x < key y).length < n := by
  by_cases hx : x ∈ l
  · obtain ⟨front, back, rfl⟩ := List.append_of_mem hx
    obtain ⟨-, hback, hfront⟩ := List.pairwise_append.1 hl
    obtain ⟨hback, -⟩ := List.pairwise_cons.1 hback
    have hfilter : ((front ++ x :: back).filter fun y => key x < key y) = back := by
      rw [List.filter_append, List.filter_eq_nil_iff.2, List.nil_append, List.filter_cons_of_neg (by simp),
        List.filter_eq_self.2]
      · exact fun y hy => decide_eq_true (hback y hy)
      · exact fun y hy => by simpa using (hfront y hy x List.mem_cons_self).le
    have hnot : x ∉ back := fun h => (hback x h).false
    rw [hfilter, and_iff_right hx, List.reverse_append, List.reverse_cons, List.append_assoc]
    rcases Nat.lt_or_ge back.length n with hlt | hge
    · refine iff_of_true ?_ hlt
      rw [List.take_append, List.mem_append]
      refine .inr ?_
      obtain ⟨k, hk⟩ : ∃ k, n - back.reverse.length = k + 1 := ⟨n - back.length - 1, by rw [List.length_reverse]; omega⟩
      rw [hk, List.singleton_append, List.take_succ_cons]
      exact List.mem_cons_self
    · refine iff_of_false (fun h => hnot ?_) (Nat.not_lt.2 hge)
      rw [List.take_append_of_le_length (by rwa [List.length_reverse])] at h
      exact List.mem_reverse.1 (List.mem_of_mem_take h)
  · exact iff_of_false (fun h => hx (List.mem_reverse.1 (List.mem_of_mem_take h))) fun h => hx h.1

theorem getLast?_upTo : (m.upTo k).getLast? = some x ↔
    x ∈ m.entries ∧ key x ≤ k ∧ ∀ y ∈ m.entries, key y ≤ k → key y ≤ key x := by
  rw [upTo, getLast?_eq_some_iff (m.sorted.filter _), ← upTo, mem_upTo]
  simp only [mem_upTo, and_imp, and_assoc]

theorem mem_takeWhile_above {p : α → Bool} : x ∈ (m.above k).takeWhile p ↔
    x ∈ m.entries ∧ k < key x ∧ ∀ y ∈ m.entries, k < key y → key y ≤ key x → p y = true := by
  rw [above, mem_takeWhile_iff (m.sorted.filter _), ← above, mem_above]
  simp only [mem_above, and_imp, and_assoc]

end SortedMap

end Egalito.Lib
