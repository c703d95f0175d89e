import Mathlib.Data.List.Chain
import Mathlib.Data.List.Nodup
import Mathlib.Tactic
/-!
# Vectors in memory

A vector whose iterators are pointers into its memory. A loop over it keeps the
two pointers it was started with, while erasing moves what is behind down.
-/

namespace Egalito.Lib

variable {α : Type}

/-- The values in use, and those in the memory behind them. -/
structure Buffer (α : Type) where
  live : List α
  rest : List α

namespace Buffer

def ofList (l : List α) : Buffer α := ⟨l, []⟩

/-- What there is in memory. -/
def slots (b : Buffer α) : List α := b.live ++ b.rest

section Erasing

variable [DecidableEq α]

/-- The first of the values that is equal is erased; the last slot keeps what it has. -/
def remove (b : Buffer α) (x : α) : Buffer α :=
  if x ∈ b.live then ⟨b.live.erase x, b.live.getLast?.toList ++ b.rest⟩ else b

variable (dead : α → Bool)

/-- One turn of the loop, at the slot `i`. -/
def eraseAt (b : Buffer α) (i : Nat) : Buffer α :=
  match b.slots[i]? with
  | none => b
  | some x => if dead x then b.remove x else b

/-- `for(auto x : v) { if(dead(x)) v.remove(x); }` -/
def eraseDead (l : List α) : Buffer α := (List.range l.length).foldl (eraseAt dead) (ofList l)

/-! ## What the loop leaves -/

/-- The value behind an erased one takes its slot, which is done with. -/
def skipping : List α → List α
  | [] => []
  | [x] => if dead x then [] else [x]
  | x :: y :: l => if dead x then y :: skipping l else x :: skipping (y :: l)

/-- The same without the last value, which is in the slots that get free at the end. -/
def remaining (last : α) (l : List α) : List α := if dead last then l.erase last else l

variable {dead} {front back rest : List α} {x last : α}

theorem remove_of_mem (hx : x ∉ front) (hlast : (x :: back).getLast? = some last) :
    remove ⟨front ++ x :: back, rest⟩ x = ⟨front ++ back, last :: rest⟩ := by
  have hlast : (front ++ x :: back).getLast? = some last := by rw [List.getLast?_append, hlast]; rfl
  rw [remove, if_pos (by simp), List.erase_append_right _ hx, List.erase_cons_head, hlast]
  rfl

theorem remove_of_not_mem (hx : x ∉ front) : remove ⟨front, rest⟩ x = ⟨front, rest⟩ := if_neg hx

/-- The slots behind the values in use hold the last value. -/
theorem live_eraseAt_rest (hnodup : front.Nodup) (hlast : last ∈ front → front.getLast? = some last)
    (hrest : ∀ y ∈ rest, y = last) {i n : Nat} (hi : front.length ≤ i) (hn : front.length + rest.length = i + n) :
    ((List.range' i n).foldl (eraseAt dead) ⟨front, rest⟩).live = if n = 0 then front else remaining dead last front := by
  induction n generalizing front rest i with
  | zero => rfl
  | succ n ih =>
    have hslot : (slots ⟨front, rest⟩)[i]? = some last := by
      have hlt : i - front.length < rest.length := by omega
      rw [slots, List.getElem?_append_right hi, List.getElem?_eq_getElem hlt]
      exact congrArg some (hrest _ (List.getElem_mem _))
    rw [List.range'_succ, List.foldl_cons, eraseAt, hslot, if_neg n.succ_ne_zero]
    dsimp only
    by_cases hdead : dead last = true
    · rw [if_pos hdead, remaining, if_pos hdead]
      by_cases hmem : last ∈ front
      · obtain ⟨l, rfl⟩ := List.getLast?_eq_some_iff.1 (hlast hmem)
        have hl : last ∉ l := fun h => (List.nodup_append.1 hnodup).2.2 last h last (by simp) rfl
        have hremove : remove ⟨l ++ [last], rest⟩ last = ⟨l ++ [], last :: rest⟩ := remove_of_mem hl rfl
        rw [hremove, List.append_nil, List.erase_append_right _ hl, List.erase_cons_head, List.append_nil]
        rw [List.length_append, List.length_singleton] at hi hn
        rw [ih (List.nodup_append.1 hnodup).1 (fun h => absurd h hl) (List.forall_mem_cons.2 ⟨rfl, hrest⟩) (by omega)
          (by rw [List.length_cons]; omega), remaining, if_pos hdead, List.erase_of_not_mem hl, ite_self]
      · rw [remove_of_not_mem hmem, ih hnodup hlast hrest (by omega) (by omega), remaining, if_pos hdead,
          List.erase_of_not_mem hmem, ite_self]
    · rw [if_neg hdead, ih hnodup hlast hrest (by omega) (by omega)]
      simp [remaining, hdead]

theorem eraseAt_middle : eraseAt dead ⟨front ++ x :: back, rest⟩ front.length =
    if dead x then remove ⟨front ++ x :: back, rest⟩ x else ⟨front ++ x :: back, rest⟩ := by
  have hslot : (slots ⟨front ++ x :: back, rest⟩)[front.length]? = some x := by simp [slots]
  rw [eraseAt, hslot]

/-- The loop at the values `back`, with `front` behind it. -/
theorem live_eraseAt (hnodup : (front ++ back).Nodup) (hlast : back ≠ [] → back.getLast? = some last)
    (hfront : back = [] → last ∈ front → front.getLast? = some last)
    (hrest : ∀ y ∈ rest, y = last) (halive : rest = [] → ∀ y ∈ front, dead y = false) :
    ((List.range' front.length (back.length + rest.length)).foldl (eraseAt dead) ⟨front ++ back, rest⟩).live =
      remaining dead last (front ++ skipping dead back) := by
  induction back using skipping.induct dead generalizing front rest with
  | case1 =>
    rw [List.append_nil] at hnodup
    rw [skipping, List.append_nil, live_eraseAt_rest hnodup (hfront rfl) hrest le_rfl (by simp)]
    split
    · rename_i hzero
      have hrest : rest = [] := by simpa using hzero
      rw [remaining]
      split
      · rename_i hdead
        rw [List.erase_of_not_mem]
        intro hmem
        rw [halive hrest last hmem] at hdead
        cases hdead
      · rfl
    · rfl
  | case2 x hdead =>
    obtain rfl : x = last := by simpa using hlast (by simp)
    have hx : x ∉ front := fun h => (List.nodup_append.1 hnodup).2.2 x h x (by simp) rfl
    have hremove : remove ⟨front ++ [x], rest⟩ x = ⟨front ++ [], x :: rest⟩ := remove_of_mem hx rfl
    rw [List.length_singleton, Nat.add_comm, List.range'_succ, List.foldl_cons, eraseAt_middle, if_pos hdead, hremove,
      List.append_nil, live_eraseAt_rest (List.nodup_append.1 hnodup).1 (fun h => absurd h hx)
        (List.forall_mem_cons.2 ⟨rfl, hrest⟩) (Nat.le_succ _) (by rw [List.length_cons]; omega), skipping, if_pos hdead,
      List.append_nil, remaining, if_pos hdead, List.erase_of_not_mem hx, ite_self]
  | case3 x hdead =>
    obtain rfl : x = last := by simpa using hlast (by simp)
    rw [List.length_singleton, Nat.add_comm, List.range'_succ, List.foldl_cons, eraseAt_middle, if_neg hdead,
      live_eraseAt_rest hnodup (fun _ => by simp) hrest (by simp) (by simp), skipping, if_neg hdead]
    split
    · rw [remaining, if_neg hdead]
    · rfl
  | case4 x y l hdead ih =>
    have hx : x ∉ front := fun h => (List.nodup_append.1 hnodup).2.2 x h x (by simp) rfl
    have hl : l ≠ [] → l.getLast? = some last := fun h => by
      rw [← hlast (by simp), List.getLast?_cons_cons, List.getLast?_cons_of_ne_nil h]
    rw [List.length_cons, Nat.add_right_comm, List.range'_succ, List.foldl_cons, eraseAt_middle, if_pos hdead,
      remove_of_mem hx (hlast (by simp)), skipping, if_pos hdead]
    have hnodup' : (front ++ [y] ++ l).Nodup := by
      rw [List.append_assoc, List.singleton_append]
      exact hnodup.sublist (List.Sublist.append_left (List.sublist_cons_self x _) front)
    have hfront : l = [] → last ∈ front ++ [y] → (front ++ [y]).getLast? = some last := fun h _ => by
      rw [← hlast (by simp), h]
      simp
    have hloop := ih hnodup' hl hfront (List.forall_mem_cons.2 ⟨rfl, hrest⟩) (by simp)
    rw [List.length_append, List.length_singleton, List.length_cons, ← Nat.add_assoc, Nat.add_right_comm] at hloop
    simpa using hloop
  | case5 x y l hdead ih =>
    have hsplit : front ++ x :: y :: l = front ++ [x] ++ y :: l := by simp
    rw [List.length_cons, Nat.add_right_comm, List.range'_succ, List.foldl_cons, eraseAt_middle, if_neg hdead,
      skipping, if_neg hdead, hsplit]
    rw [hsplit] at hnodup
    have halive' : rest = [] → ∀ z ∈ front ++ [x], dead z = false := fun h z hz => by
      rcases List.mem_append.1 hz with hz | hz
      · exact halive h z hz
      · rw [List.mem_singleton.1 hz]
        exact Bool.eq_false_iff.2 hdead
    have hloop := ih hnodup (fun _ => by rw [← hlast (by simp), List.getLast?_cons_cons]) (fun h => by simp at h) hrest halive'
    rw [List.length_append, List.length_singleton] at hloop
    simpa using hloop

theorem live_eraseDead {l : List α} (hnodup : l.Nodup) (hlast : l ≠ [] → l.getLast? = some last) :
    (eraseDead dead l).live = remaining dead last (skipping dead l) := by
  by_cases hl : l = []
  · subst hl
    rw [eraseDead, remaining]
    simp [skipping, ofList]
  · have hloop : ((List.range' 0 l.length).foldl (eraseAt dead) ⟨[] ++ l, []⟩).live =
        remaining dead last ([] ++ skipping dead l) :=
      live_eraseAt hnodup hlast (fun h => absurd h hl) (by simp) (by simp)
    rw [eraseDead, List.range_eq_range']
    exact hloop

/-! ## When only the dead values are erased -/

theorem remaining_cons {l : List α} (hx : x ≠ last) : remaining dead last (x :: l) = x :: remaining dead last l := by
  rw [remaining, remaining, List.erase_cons_tail (by simpa using hx)]
  split <;> rfl

/-- Of two dead values beside each other the second stays, unless they are the last two. -/
theorem remaining_skipping_iff {l : List α} (hnodup : l.Nodup) (hlast : l ≠ [] → l.getLast? = some last) :
    remaining dead last (skipping dead l) = l.filter (fun x => !dead x) ↔
      l.dropLast.IsChain fun x y => dead x = false ∨ dead y = false := by
  induction l using skipping.induct dead with
  | case1 => simp [remaining, skipping]
  | case2 x hdead => simp [remaining, skipping, hdead]
  | case3 x hdead =>
    obtain rfl : x = last := by simpa using hlast (by simp)
    simp [remaining, skipping, hdead]
  | case4 x y l hdead ih =>
    obtain ⟨hxy, hnodup⟩ := List.nodup_cons.1 hnodup
    obtain ⟨hy, hnodup⟩ := List.nodup_cons.1 hnodup
    rw [skipping, if_pos hdead, List.filter_cons_of_neg (by simp [hdead])]
    by_cases hl : l = []
    · subst hl
      obtain rfl : y = last := by simpa using hlast (by simp)
      rw [skipping, remaining]
      cases hd : dead y <;> simp [hd]
    · have hl' : l.getLast? = some last := by
        rw [← hlast (by simp), List.getLast?_cons_cons, List.getLast?_cons_of_ne_nil hl]
      have hne : y ≠ last := fun h => hy (h ▸ List.mem_of_getLast? hl')
      rw [remaining_cons hne, List.dropLast_cons₂, List.dropLast_cons_of_ne_nil hl, List.isChain_cons_cons]
      cases hd : dead y with
      | true =>
        rw [List.filter_cons_of_neg (by simp [hd])]
        refine iff_of_false (fun heq => hy ?_) (by simp [hdead])
        exact List.mem_of_mem_filter (heq ▸ List.mem_cons_self)
      | false =>
        rw [List.filter_cons_of_pos (by simp [hd]), List.cons.injEq, and_iff_right rfl, ih hnodup fun _ => hl',
          and_iff_right (.inr rfl)]
        exact (List.isChain_cons.trans (and_iff_right fun _ _ => .inl hd)).symm
  | case5 x y l hdead ih =>
    obtain ⟨hxy, hnodup⟩ := List.nodup_cons.1 hnodup
    have hl' : (y :: l).getLast? = some last := by rw [← hlast (by simp), List.getLast?_cons_cons]
    have hne : x ≠ last := fun h => hxy (h ▸ List.mem_of_getLast? hl')
    rw [skipping, if_neg hdead, remaining_cons hne, List.filter_cons_of_pos (by simp [hdead]), List.cons.injEq,
      and_iff_right rfl, ih hnodup fun _ => hl', List.dropLast_cons₂]
    exact (List.isChain_cons.trans (and_iff_right fun _ _ => .inl (Bool.eq_false_iff.2 hdead))).symm

/-- The loop erases the dead values and no others exactly when no two of them are beside each
other in the list without its last value. -/
theorem eraseDead_iff {l : List α} (hnodup : l.Nodup) : (eraseDead dead l).live = l.filter (fun x => !dead x) ↔
    l.dropLast.IsChain fun x y => dead x = false ∨ dead y = false := by
  cases l with
  | nil => simp [eraseDead, ofList]
  | cons x l =>
    have hlast : x :: l ≠ [] → (x :: l).getLast? = some ((x :: l).getLast (by simp)) := fun h => List.getLast?_eq_getLast_of_ne_nil h
    rw [live_eraseDead hnodup hlast, remaining_skipping_iff hnodup hlast]

end Erasing

end Buffer

end Egalito.Lib
