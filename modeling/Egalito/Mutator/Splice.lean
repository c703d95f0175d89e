import Egalito.Lib.Siblings
import Egalito.Mutator.Model
/-!
# What the operations do to the tree

Every operation of `ChunkMutator` is made of five edits of the pointers and the
child lists. `Placed` and `Taken` say what they do to lists and parents, whatever
the sibling pointers are; `Spliced` and `Unspliced` also say what becomes of the
sibling pointers. The invariants of a tree are proved from these relations once.
-/

namespace Egalito.Mutator

open Lib ChunkMutator

variable {t t' : Tree} {s s' : State} {c d x y : ChunkId} {l r : List ChunkId} {n : Option ChunkId}

namespace Tree

/-- In no child list. -/
def Detached (t : Tree) (x : ChunkId) : Prop := ∀ c, x ∉ t.children c

/-- A child points to its only parent, and is of the kind that the parent's list holds. -/
structure Owned (t : Tree) : Prop where
  parent : ∀ {c x}, x ∈ t.children c → t.parent x = some c
  nodup : ∀ c, (t.children c).Nodup
  fits : ∀ {c x}, x ∈ t.children c → (t.kind c).fits (t.kind x)

/-- The sibling pointers follow the child lists, except for the last `nextSibling` of a list. -/
def Threaded (t : Tree) : Prop := ∀ c, Chained t.previousSibling t.nextSibling none (t.children c)

theorem Threaded.prev_eq (ht : t.Threaded) (hsplit : t.children c = l ++ x :: r) :
    t.previousSibling x = l.getLast? := by
  have h := ht c
  rw [hsplit] at h
  rw [h.prev_eq, Option.or_none]

theorem Threaded.next_eq (ht : t.Threaded) (hsplit : t.children c = l ++ x :: r)
    (hlast : x ∈ (t.children c).getLast? → t.nextSibling x = none) : t.nextSibling x = r.head? := by
  by_cases hr : r = []
  · subst hr
    exact hlast (by simp [hsplit])
  · have h := ht c
    rw [hsplit] at h
    exact h.next_eq hr

theorem Owned.unique (ho : t.Owned) (hc : x ∈ t.children c) (hd : x ∈ t.children d) : c = d := by
  have := (ho.parent hc).symm.trans (ho.parent hd)
  exact Option.some.inj this

theorem Owned.notMem (ho : t.Owned) (hsplit : t.children c = l ++ x :: r) : x ∉ l ∧ x ∉ r := by
  have hnd := ho.nodup c
  rw [hsplit, List.nodup_middle, List.nodup_cons, List.mem_append, not_or] at hnd
  exact hnd.1

/-- Only what is in a child list matters. -/
theorem Owned.congr (ho : t.Owned) (hchildren : t'.children = t.children)
    (hattached : ∀ c x, x ∈ t.children c → t'.parent x = t.parent x ∧ t'.kind x = t.kind x ∧
      t'.kind c = t.kind c) : t'.Owned := by
  refine ⟨?_, ?_, ?_⟩
  · intro c x hx
    rw [hchildren] at hx
    rw [(hattached c x hx).1]
    exact ho.parent hx
  · intro c
    rw [hchildren]
    exact ho.nodup c
  · intro c x hx
    rw [hchildren] at hx
    rw [(hattached c x hx).2.1, (hattached c x hx).2.2]
    exact ho.fits hx

theorem Threaded.congr (ht : t.Threaded) (hchildren : t'.children = t.children)
    (hattached : ∀ c x, x ∈ t.children c → t'.previousSibling x = t.previousSibling x ∧
      t'.nextSibling x = t.nextSibling x) : t'.Threaded := by
  intro c
  rw [hchildren]
  exact (ht c).congr (fun x hx => (hattached c x hx).1)
    (fun x hx => (hattached c x (List.mem_of_mem_dropLast hx)).2)

/-- `x` may be inserted into `c`: it is in no child list, and `c` holds chunks of its kind. -/
structure Insertable (t : Tree) (c x : ChunkId) : Prop where
  detached : t.Detached x
  fits : (t.kind c).fits (t.kind x)

/-- An id that `new Block()` may return. -/
structure Fresh (t : Tree) (b : ChunkId) : Prop where
  detached : t.Detached b
  children : t.children b = []

end Tree

/-- The calls that `mutator.h` documents. Insert points are null or children, what is
removed is there, and what is inserted is not yet anywhere. -/
def Op.Legal (t : Tree) (c : ChunkId) : Op → Prop
  | prepend x | append x => t.Insertable c x
  | insertAfter pt x | insertBefore pt x => t.Insertable c x ∧ ∀ a ∈ pt, a ∈ t.children c
  | insertBeforeJumpTo pt x => t.kind c = .block ∧ t.Insertable c x ∧ ∀ a ∈ pt, a ∈ t.children c
  | insertAllAfter pt xs | insertAllBefore pt xs _ =>
    t.kind c = .block ∧ (∀ x ∈ xs, t.Insertable c x) ∧ xs.Nodup ∧ ∀ a ∈ pt, a ∈ t.children c
  | remove x => x ∈ t.children c
  | removeLast n => n ≤ (t.children c).length
  | splitBlockBefore point b => (∃ block ∈ t.children c, point ∈ t.children block) ∧ t.Fresh b

def Step.Legal (t : Tree) : Step → Prop
  | call c op => op.Legal t c
  | destroy _ => True

/-! ## Edits -/

/-- `x` is put between `l` and `r` in the list of `c`. -/
structure Placed (t t' : Tree) (c : ChunkId) (l : List ChunkId) (x : ChunkId) (r : List ChunkId) : Prop where
  split : t.children c = l ++ r
  kind : t'.kind = t.kind
  children : t'.children = Function.update t.children c (l ++ x :: r)
  parent : t'.parent = Function.update t.parent x (some c)

/-- `x` is also linked with its neighbours; `n` is what it points to. -/
structure Spliced (t t' : Tree) (c : ChunkId) (l : List ChunkId) (x : ChunkId) (r : List ChunkId)
    (n : Option ChunkId) : Prop extends Placed t t' c l x r where
  prev : ∀ y, t'.previousSibling y =
    if y = x then l.getLast? else if r.head? = some y then some x else t.previousSibling y
  next : ∀ y, t'.nextSibling y = if y = x then n else if l.getLast? = some y then some x else t.nextSibling y

/-- `x` is taken out of the list of `c`. -/
structure Taken (t t' : Tree) (c : ChunkId) (l : List ChunkId) (x : ChunkId) (r : List ChunkId) : Prop where
  split : t.children c = l ++ x :: r
  kind : t'.kind = t.kind
  children : t'.children = Function.update t.children c (l ++ r)
  parent : t'.parent = t.parent

/-- The neighbours of `x` are also linked with each other. -/
structure Unspliced (t t' : Tree) (c : ChunkId) (l : List ChunkId) (x : ChunkId) (r : List ChunkId) : Prop
    extends Taken t t' c l x r where
  prev : ∀ y, t'.previousSibling y = if r.head? = some y then l.getLast? else t.previousSibling y
  next : ∀ y, t'.nextSibling y = if l.getLast? = some y then r.head? else t.nextSibling y

/-! ## What the edits keep -/

section Keep

theorem Placed.mem_iff (hp : Placed t t' c l x r) : y ∈ t'.children d ↔ y ∈ t.children d ∨ (d = c ∧ y = x) := by
  rw [hp.children]
  by_cases hd : d = c
  · subst hd
    rw [Function.update_self, hp.split, List.mem_append, List.mem_append, List.mem_cons]
    tauto
  · rw [Function.update_of_ne hd]
    tauto

theorem Placed.detached (hp : Placed t t' c l x r) (hy : t.Detached y) (hyx : y ≠ x) : t'.Detached y := by
  intro d hd
  rcases hp.mem_iff.1 hd with h | ⟨-, h⟩
  · exact hy d h
  · exact hyx h

theorem Placed.insertable (hp : Placed t t' c l x r) (hy : t.Insertable d y) (hyx : y ≠ x) :
    t'.Insertable d y :=
  ⟨hp.detached hy.detached hyx, by rw [hp.kind]; exact hy.fits⟩

theorem Taken.sublist (hp : Taken t t' c l x r) (d : ChunkId) : List.Sublist (t'.children d) (t.children d) := by
  rw [hp.children]
  by_cases hd : d = c
  · subst hd
    rw [Function.update_self, hp.split]
    exact List.Sublist.append_left (List.sublist_cons_self x r) l
  · rw [Function.update_of_ne hd]

theorem Taken.detached (hp : Taken t t' c l x r) (hy : t.Detached y) : t'.Detached y :=
  fun d hd => hy d ((hp.sublist d).subset hd)

theorem Taken.detached_self (hp : Taken t t' c l x r) (ho : t.Owned) : t'.Detached x := by
  intro d hd
  have hxd := (hp.sublist d).subset hd
  obtain rfl := ho.unique hxd (c := d) (d := c) (by simp [hp.split])
  rw [hp.children, Function.update_self, List.mem_append] at hd
  obtain ⟨hl, hr⟩ := ho.notMem hp.split
  exact hd.elim hl hr

theorem Placed.owned (hp : Placed t t' c l x r) (ho : t.Owned) (hx : t.Detached x)
    (hfits : (t.kind c).fits (t.kind x)) : t'.Owned := by
  have hc := hp.split
  have hxc : x ∉ l ++ r := hc ▸ hx c
  have hmem : ∀ d y, y ∈ t'.children d → (d = c ∧ y = x) ∨ (y ∈ t.children d ∧ y ≠ x) := by
    intro d y hy
    rcases hp.mem_iff.1 hy with h | h
    · exact .inr ⟨h, fun he => hx d (he ▸ h)⟩
    · exact .inl h
  refine ⟨?_, ?_, ?_⟩
  · intro d y hy
    rw [hp.parent]
    rcases hmem d y hy with ⟨rfl, rfl⟩ | ⟨hy, hne⟩
    · exact Function.update_self ..
    · rw [Function.update_of_ne hne]
      exact ho.parent hy
  · intro d
    rw [hp.children]
    by_cases hd : d = c
    · subst hd
      rw [Function.update_self, List.nodup_middle, List.nodup_cons]
      exact ⟨hxc, hc ▸ ho.nodup d⟩
    · rw [Function.update_of_ne hd]
      exact ho.nodup d
  · intro d y hy
    rw [hp.kind]
    rcases hmem d y hy with ⟨rfl, rfl⟩ | ⟨hy, -⟩
    · exact hfits
    · exact ho.fits hy

theorem Taken.owned (hp : Taken t t' c l x r) (ho : t.Owned) : t'.Owned := by
  refine ⟨?_, ?_, ?_⟩
  · intro d y hy
    rw [hp.parent]
    exact ho.parent ((hp.sublist d).subset hy)
  · intro d
    exact (ho.nodup d).sublist (hp.sublist d)
  · intro d y hy
    rw [hp.kind]
    exact ho.fits ((hp.sublist d).subset hy)

namespace Spliced

variable (hp : Spliced t t' c l x r n)
include hp

theorem prev_head (hyx : y ≠ x) (hy : y ∈ r.head?) : t'.previousSibling y = some x := by
  rw [hp.prev, if_neg hyx, if_pos (Option.mem_def.1 hy)]

theorem prev_other (hyx : y ≠ x) (hy : y ∉ r.head?) : t'.previousSibling y = t.previousSibling y := by
  rw [hp.prev, if_neg hyx, if_neg (fun h => hy (Option.mem_def.2 h))]

theorem next_last (hyx : y ≠ x) (hy : y ∈ l.getLast?) : t'.nextSibling y = some x := by
  rw [hp.next, if_neg hyx, if_pos (Option.mem_def.1 hy)]

theorem next_other (hyx : y ≠ x) (hy : y ∉ l.getLast?) : t'.nextSibling y = t.nextSibling y := by
  rw [hp.next, if_neg hyx, if_neg (fun h => hy (Option.mem_def.2 h))]

theorem threaded (ho : t.Owned) (hx : t.Detached x) (ht : t.Threaded) (hn : r ≠ [] → n = r.head?) :
    t'.Threaded := by
  intro d
  have hc := hp.split
  obtain ⟨hndl, hndr, hdisj⟩ := List.nodup_append.1 (hc ▸ ho.nodup c)
  have hnew : ∀ {y d}, y ∈ t.children d → y ≠ x := fun hy h => hx _ (h ▸ hy)
  have hl : ∀ {y}, y ∈ l → y ≠ x := fun hy => hnew (hc ▸ List.mem_append_left r hy)
  have hr : ∀ {y}, y ∈ r → y ≠ x := fun hy => hnew (hc ▸ List.mem_append_right l hy)
  rw [hp.children]
  by_cases hd : d = c
  · subst hd
    rw [Function.update_self]
    have htd := ht d
    rw [hc] at htd
    refine htd.insert ?_ ?_ ?_ ?_ ?_ ?_ ?_ ?_
    · rw [hp.prev, if_pos rfl, Option.or_none]
    · intro y hy
      exact hp.prev_head (hr (List.mem_of_mem_head? hy)) hy
    · intro y hy
      exact hp.prev_other (hl hy) fun h => hdisj y hy y (List.mem_of_mem_head? h) rfl
    · intro y hy
      exact hp.prev_other (hr (List.mem_of_mem_tail hy)) (not_mem_head?_of_mem_tail hndr hy)
    · intro y hy
      rw [hp.next, if_pos rfl, hn (by rintro rfl; simp at hy), hy]
    · intro y hy
      exact hp.next_last (hl (List.mem_of_mem_getLast? hy)) hy
    · intro y hy
      exact hp.next_other (hl (List.mem_of_mem_dropLast hy)) (not_mem_getLast?_of_mem_dropLast hndl hy)
    · intro y hy
      have hyr := List.mem_of_mem_dropLast hy
      exact hp.next_other (hr hyr) fun h => hdisj y (List.mem_of_mem_getLast? h) y hyr rfl
  · rw [Function.update_of_ne hd]
    have hother : ∀ y ∈ t.children d, y ∉ l ++ r := fun y hy h => hd (ho.unique hy (hc ▸ h))
    refine (ht d).congr (fun y hy => ?_) (fun y hy => ?_)
    · exact hp.prev_other (hnew hy)
        fun h => hother y hy (List.mem_append_right l (List.mem_of_mem_head? h))
    · have hy := List.mem_of_mem_dropLast hy
      exact hp.next_other (hnew hy)
        fun h => hother y hy (List.mem_append_left r (List.mem_of_mem_getLast? h))

end Spliced

namespace Unspliced

variable (hp : Unspliced t t' c l x r)
include hp

theorem prev_other (hy : y ∉ r.head?) : t'.previousSibling y = t.previousSibling y := by
  rw [hp.prev, if_neg (fun h => hy (Option.mem_def.2 h))]

theorem next_other (hy : y ∉ l.getLast?) : t'.nextSibling y = t.nextSibling y := by
  rw [hp.next, if_neg (fun h => hy (Option.mem_def.2 h))]

theorem threaded (ho : t.Owned) (ht : t.Threaded) : t'.Threaded := by
  intro d
  have hc := hp.split
  obtain ⟨hndl, hndr, hdisj⟩ := List.nodup_append.1 (hc ▸ ho.nodup c)
  have hdisj' : ∀ y ∈ l, y ∉ r := fun y hy hr => hdisj y hy y (List.mem_cons_of_mem x hr) rfl
  rw [hp.children]
  by_cases hd : d = c
  · subst hd
    rw [Function.update_self]
    have htd := ht d
    rw [hc] at htd
    refine htd.remove ?_ ?_ ?_ ?_ ?_ ?_
    · intro y hy
      rw [hp.prev, if_pos (Option.mem_def.1 hy), Option.or_none]
    · intro y hy
      exact hp.prev_other fun h => hdisj' y hy (List.mem_of_mem_head? h)
    · intro y hy
      exact hp.prev_other (not_mem_head?_of_mem_tail (List.nodup_cons.1 hndr).2 hy)
    · intro y hy z hz
      rw [hp.next, if_pos (Option.mem_def.1 hy), hz]
    · intro y hy
      exact hp.next_other (not_mem_getLast?_of_mem_dropLast hndl hy)
    · intro y hy
      exact hp.next_other fun h => hdisj' y (List.mem_of_mem_getLast? h) (List.mem_of_mem_dropLast hy)
  · rw [Function.update_of_ne hd]
    have hother : ∀ y ∈ t.children d, y ∉ l ∧ y ∉ r := by
      intro y hy
      refine ⟨fun h => hd (ho.unique hy ?_), fun h => hd (ho.unique hy ?_)⟩
      · exact hc ▸ List.mem_append_left _ h
      · exact hc ▸ List.mem_append_right _ (List.mem_cons_of_mem x h)
    refine (ht d).congr (fun y hy => ?_) (fun y hy => ?_)
    · exact hp.prev_other fun h => (hother y hy).2 (List.mem_of_mem_head? h)
    · exact hp.next_other fun h => (hother y (List.mem_of_mem_dropLast hy)).1 (List.mem_of_mem_getLast? h)

end Unspliced

end Keep

/-! ## The edits of the model -/

section Edits

variable {p a : ChunkId}

@[simp]
theorem setPreviousSibling_toHeap (c : ChunkId) (p : Option ChunkId) (s : State) :
    (ChunkMutator.setPreviousSibling c p s).toHeap =
      { s.toHeap with previousSibling := Function.update s.previousSibling c p } := by
  cases p <;> rfl

@[simp]
theorem setNextSibling_toHeap (c : ChunkId) (n : Option ChunkId) (s : State) :
    (ChunkMutator.setNextSibling c n s).toHeap =
      { s.toHeap with nextSibling := Function.update s.nextSibling c n } := by
  cases n <;> rfl

theorem linkLast_toHeap (c x : ChunkId) (s : State) : (linkLast c x s).toHeap =
    { s.toHeap with
      previousSibling := Function.update s.previousSibling x (s.children c).getLast?
      nextSibling := match (s.children c).getLast? with
        | some p => Function.update s.nextSibling p (some x)
        | none => Function.update s.nextSibling x none } := by
  unfold linkLast
  cases (s.children c).getLast? with
  | none => rfl
  | some p => simp

theorem linkAfter_toHeap (a x : ChunkId) (s : State) : (linkAfter (some a) x s).toHeap =
    { s.toHeap with
      previousSibling := match s.nextSibling a with
        | some n => Function.update (Function.update s.previousSibling x (some a)) n (some x)
        | none => Function.update s.previousSibling x (some a)
      nextSibling := Function.update (Function.update s.nextSibling x (s.nextSibling a)) a (some x) } := by
  unfold linkAfter
  cases hn : s.nextSibling a <;> simp [hn]

theorem linkAfter_none_toHeap (x : ChunkId) (s : State) : (linkAfter none x s).toHeap =
    { s.toHeap with
      previousSibling := Function.update s.previousSibling x none
      nextSibling := Function.update s.nextSibling x none } := rfl

theorem linkBefore_toHeap (a x : ChunkId) (s : State) : (linkBefore a x s).toHeap =
    { s.toHeap with
      previousSibling := Function.update (Function.update s.previousSibling x (s.previousSibling a)) a (some x)
      nextSibling := match s.previousSibling a with
        | some p => Function.update (Function.update s.nextSibling p (some x)) x (some a)
        | none => Function.update s.nextSibling x (some a) } := by
  unfold linkBefore
  cases hp : s.previousSibling a <;> simp

theorem unlink_toHeap (x : ChunkId) (s : State) : (unlink x s).toHeap =
    { s.toHeap with
      previousSibling := match s.nextSibling x with
        | some n => Function.update s.previousSibling n (s.previousSibling x)
        | none => s.previousSibling
      nextSibling := match s.previousSibling x with
        | some p => Function.update s.nextSibling p (s.nextSibling x)
        | none => s.nextSibling } := by
  unfold unlink
  cases hp : s.previousSibling x <;> cases hn : s.nextSibling x <;> simp

theorem placeLast_toHeap (hfits : (s.kind c).fits (s.kind x)) : (placeLast c x s).toHeap =
    { (linkLast c x s).toHeap with
      children := Function.update s.children c (s.children c ++ [x])
      parent := Function.update s.parent x (some c) } := by
  unfold placeLast State.genericAdd State.setParent State.setChildren
  simp [linkLast_toHeap, hfits]

theorem placeAfter_toHeap (hfits : (s.kind c).fits (s.kind x)) (hkind : (s.kind c).fits (s.kind a))
    (hsplit : s.children c = l ++ a :: r) (ha : a ∉ l) : (placeAfter c (some a) x s).toHeap =
    { (linkAfter (some a) x s).toHeap with
      children := Function.update s.children c (l ++ a :: x :: r)
      parent := Function.update s.parent x (some c) } := by
  have hindex : (linkAfter (some a) x s).genericIndexOf c a = some l.length := by
    unfold State.genericIndexOf
    simp [linkAfter_toHeap, hkind, hsplit, idxOf?_middle ha]
  unfold placeAfter
  simp only [hindex]
  unfold State.genericInsertAt State.setParent State.setChildren
  have hinsert : (l ++ a :: r).insertIdx (l.length + 1) x = l ++ a :: x :: r := by
    have := insertIdx_middle (a := l ++ [a]) (b := r) (x := x)
    simpa using this
  simp [linkAfter_toHeap, hfits, hsplit, hinsert]

theorem placeAfter_none_toHeap (hfits : (s.kind c).fits (s.kind x)) : (placeAfter c none x s).toHeap =
    { (linkAfter none x s).toHeap with
      children := Function.update s.children c (x :: s.children c)
      parent := Function.update s.parent x (some c) } := by
  unfold placeAfter State.genericInsertAt State.setParent State.setChildren
  simp [linkAfter_none_toHeap, hfits]

theorem placeBefore_toHeap (hfits : (s.kind c).fits (s.kind x)) (hkind : (s.kind c).fits (s.kind a))
    (hsplit : s.children c = l ++ a :: r) (ha : a ∉ l) : ∃ s', placeBefore c a x s = some s' ∧ s'.toHeap =
    { (linkBefore a x s).toHeap with
      children := Function.update s.children c (l ++ x :: a :: r)
      parent := Function.update s.parent x (some c) } := by
  have hindex : (linkBefore a x s).genericIndexOf c a = some l.length := by
    unfold State.genericIndexOf
    simp [linkBefore_toHeap, hkind, hsplit, idxOf?_middle ha]
  unfold placeBefore
  simp only [hindex]
  refine ⟨_, rfl, ?_⟩
  unfold State.genericInsertAt State.setParent State.setChildren
  simp [linkBefore_toHeap, hfits, hsplit, insertIdx_middle]

theorem placeLast_placed (hfits : (s.kind c).fits (s.kind x)) :
    Placed s.toTree (placeLast c x s).toTree c (s.children c) x [] := by
  rw [placeLast_toHeap hfits, linkLast_toHeap]
  exact ⟨(List.append_nil _).symm, rfl, rfl, rfl⟩

/-- `append` leaves the old `nextSibling` of the new child of a list that is not empty. -/
theorem placeLast_spliced (hfits : (s.kind c).fits (s.kind x)) (hx : s.Detached x) :
    Spliced s.toTree (placeLast c x s).toTree c (s.children c) x []
      (if s.children c = [] then none else s.nextSibling x) := by
  refine ⟨placeLast_placed hfits, ?_, ?_⟩
  · intro y
    rw [placeLast_toHeap hfits, linkLast_toHeap]
    simp [Function.update_apply]
  · intro y
    rw [placeLast_toHeap hfits, linkLast_toHeap]
    cases hlast : (s.children c).getLast? with
    | none =>
      rw [List.getLast?_eq_none_iff] at hlast
      simp [hlast, Function.update_apply]
    | some p =>
      have hne : s.children c ≠ [] := by rintro h; simp [h] at hlast
      have hpx : p ≠ x := fun h => hx c (h ▸ List.mem_of_getLast? hlast)
      by_cases hyx : y = x
      · subst hyx
        simp [hne, Function.update_of_ne hpx.symm]
      · by_cases hyp : y = p
        · simp [hyp, hpx]
        · simp [hyx, Function.update_of_ne hyp, Ne.symm hyp]

theorem placeAfter_placed (hfits : (s.kind c).fits (s.kind x)) (ho : s.Owned)
    (hsplit : s.children c = l ++ a :: r) :
    Placed s.toTree (placeAfter c (some a) x s).toTree c (l ++ [a]) x r := by
  have hkind := ho.fits (c := c) (x := a) (by simp [hsplit])
  rw [placeAfter_toHeap hfits hkind hsplit (ho.notMem hsplit).1, linkAfter_toHeap]
  exact ⟨by simp [hsplit], rfl, by simp, rfl⟩

/-- `insertAfter` trusts the `nextSibling` of its insert point. -/
theorem placeAfter_spliced (hfits : (s.kind c).fits (s.kind x)) (hx : s.Detached x) (ho : s.Owned)
    (hsplit : s.children c = l ++ a :: r) (hnext : s.nextSibling a = r.head?) :
    Spliced s.toTree (placeAfter c (some a) x s).toTree c (l ++ [a]) x r r.head? := by
  have hkind := ho.fits (c := c) (x := a) (by simp [hsplit])
  have hax : a ≠ x := fun h => hx c (by simp [hsplit, h])
  have hrx : ∀ y ∈ r.head?, y ≠ x := fun y hy h =>
    hx c (by rw [hsplit, ← h]; simp [List.mem_of_mem_head? hy])
  refine ⟨placeAfter_placed hfits ho hsplit, ?_, ?_⟩
  · intro y
    rw [placeAfter_toHeap hfits hkind hsplit (ho.notMem hsplit).1, linkAfter_toHeap]
    cases hr : r.head? with
    | none => simp [hnext, hr, Function.update_apply]
    | some n =>
      have hnx := hrx n hr
      by_cases hyx : y = x
      · subst hyx
        simp [hnext, hr, Function.update_of_ne hnx.symm]
      · by_cases hyn : y = n
        · simp [hnext, hr, hyn, hnx]
        · simp [hnext, hr, Function.update_of_ne hyn, hyx, Ne.symm hyn]
  · intro y
    rw [placeAfter_toHeap hfits hkind hsplit (ho.notMem hsplit).1, linkAfter_toHeap]
    by_cases hyx : y = x
    · subst hyx
      simp [hnext, Function.update_of_ne hax.symm]
    · by_cases hya : y = a
      · simp [hya, hax]
      · simp [Function.update_of_ne hya, hyx, Ne.symm hya]

theorem placeAfter_none_placed (hfits : (s.kind c).fits (s.kind x)) :
    Placed s.toTree (placeAfter c none x s).toTree c [] x (s.children c) := by
  rw [placeAfter_none_toHeap hfits, linkAfter_none_toHeap]
  exact ⟨rfl, rfl, rfl, rfl⟩

/-- With a null insert point the old first child is not told about the new one. -/
theorem placeAfter_none_spliced (hfits : (s.kind c).fits (s.kind x)) (hempty : s.children c = []) :
    Spliced s.toTree (placeAfter c none x s).toTree c [] x (s.children c) none := by
  refine ⟨placeAfter_none_placed hfits, ?_, ?_⟩ <;>
  · intro y
    rw [placeAfter_none_toHeap hfits, linkAfter_none_toHeap]
    simp [hempty, Function.update_apply]

theorem placeBefore_placed (hfits : (s.kind c).fits (s.kind x)) (ho : s.Owned)
    (hsplit : s.children c = l ++ a :: r) :
    ∃ s', placeBefore c a x s = some s' ∧ Placed s.toTree s'.toTree c l x (a :: r) := by
  have hkind := ho.fits (c := c) (x := a) (by simp [hsplit])
  obtain ⟨s', hs', htree⟩ := placeBefore_toHeap hfits hkind hsplit (ho.notMem hsplit).1
  refine ⟨s', hs', ?_⟩
  rw [htree, linkBefore_toHeap]
  exact ⟨hsplit, rfl, rfl, rfl⟩

theorem placeBefore_spliced (hfits : (s.kind c).fits (s.kind x)) (hx : s.Detached x) (ho : s.Owned)
    (hsplit : s.children c = l ++ a :: r) (hprev : s.previousSibling a = l.getLast?)
    (hs' : placeBefore c a x s = some s') : Spliced s.toTree s'.toTree c l x (a :: r) (some a) := by
  have hkind := ho.fits (c := c) (x := a) (by simp [hsplit])
  have hax : a ≠ x := fun h => hx c (by simp [hsplit, h])
  have hlx : ∀ y ∈ l.getLast?, y ≠ x := fun y hy h =>
    hx c (by rw [hsplit, ← h]; simp [List.mem_of_mem_getLast? hy])
  obtain ⟨s₁, hs₁, hplaced⟩ := placeBefore_placed hfits ho hsplit
  obtain ⟨s₂, hs₂, htree⟩ := placeBefore_toHeap hfits hkind hsplit (ho.notMem hsplit).1
  cases hs₁.symm.trans hs'
  cases hs₂.symm.trans hs'
  refine ⟨hplaced, ?_, ?_⟩
  · intro y
    rw [htree, linkBefore_toHeap]
    by_cases hyx : y = x
    · subst hyx
      simp [hprev, Function.update_of_ne hax.symm]
    · by_cases hya : y = a
      · simp [hya, hax]
      · simp [Function.update_of_ne hya, hyx, Ne.symm hya]
  · intro y
    rw [htree, linkBefore_toHeap]
    cases hl : l.getLast? with
    | none => simp [hprev, hl, Function.update_apply]
    | some p =>
      have hpx := hlx p hl
      by_cases hyx : y = x
      · subst hyx
        simp [hprev, hl]
      · by_cases hyp : y = p
        · simp [hprev, hl, hyp, hpx]
        · simp [hprev, hl, Function.update_of_ne hyp, hyx, Ne.symm hyp]

theorem unlink_taken (ho : s.Owned) (hsplit : s.children c = l ++ x :: r) :
    Taken s.toTree ((unlink x s).genericRemove c x).toTree c l x r := by
  have hfits := ho.fits (c := c) (x := x) (by simp [hsplit])
  have herase : (l ++ x :: r).erase x = l ++ r := by
    rw [List.erase_append_right _ (ho.notMem hsplit).1, List.erase_cons_head]
  unfold State.genericRemove State.setChildren
  rw [unlink_toHeap]
  simp only [hfits, if_true, hsplit, herase]
  exact ⟨hsplit, rfl, rfl, rfl⟩

/-- `remove` trusts the `nextSibling` of the child it removes. -/
theorem unlink_unspliced (ho : s.Owned) (hsplit : s.children c = l ++ x :: r)
    (hprev : s.previousSibling x = l.getLast?) (hnext : s.nextSibling x = r.head?) :
    Unspliced s.toTree ((unlink x s).genericRemove c x).toTree c l x r := by
  have hfits := ho.fits (c := c) (x := x) (by simp [hsplit])
  refine ⟨unlink_taken ho hsplit, ?_, ?_⟩
  · intro y
    unfold State.genericRemove State.setChildren
    rw [unlink_toHeap]
    cases hr : r.head? with
    | none => simp [hfits, hnext, hr]
    | some n => simp [hfits, hnext, hr, hprev, Function.update_apply, eq_comm]
  · intro y
    unfold State.genericRemove State.setChildren
    rw [unlink_toHeap]
    cases hl : l.getLast? with
    | none => simp [hfits, hprev, hl]
    | some p => simp [hfits, hnext, hl, hprev, Function.update_apply, eq_comm]

theorem dropLastChild_taken (hsplit : s.children c = l ++ [x]) : ∃ s', dropLastChild c s = some (s.size x, s') ∧
    Taken s.toTree s'.toTree c l x [] ∧ s'.size = s.size ∧ s'.pos = s.pos := by
  unfold dropLastChild State.setChildren State.setNextSibling
  simp only [hsplit, List.getLast?_concat, Option.bind_eq_bind, Option.bind_some, Option.pure_def]
  cases s.previousSibling x with
  | none => exact ⟨_, rfl, ⟨hsplit, rfl, by simp [hsplit], rfl⟩, rfl, rfl⟩
  | some p => exact ⟨_, rfl, ⟨hsplit, rfl, by simp [hsplit], rfl⟩, rfl, rfl⟩

theorem dropLastChild_unspliced (hsplit : s.children c = l ++ [x]) (hprev : s.previousSibling x = l.getLast?)
    {k : Nat} (hs' : dropLastChild c s = some (k, s')) : Unspliced s.toTree s'.toTree c l x [] := by
  obtain ⟨s₁, hs₁, htaken, -⟩ := dropLastChild_taken hsplit
  cases hs₁.symm.trans hs'
  refine ⟨htaken, ?_, ?_⟩
  all_goals
    unfold dropLastChild State.setChildren State.setNextSibling at hs'
    simp only [hsplit, List.getLast?_concat, Option.bind_eq_bind, Option.bind_some, Option.pure_def,
      Option.some.injEq, Prod.mk.injEq, hprev] at hs'
    obtain ⟨-, rfl⟩ := hs'
    intro y
  · cases l.getLast? <;> simp
  · cases l.getLast? <;> simp [Function.update_apply, eq_comm]

end Edits

/-! ## The rest of an operation leaves the tree alone -/

section Frame

variable {env : Env} {m : PosM Unit}

theorem updatePos_toHeap (h : s.updatePos m = some s') : s'.toHeap = s.toHeap := by
  unfold State.updatePos at h
  rw [Option.map_eq_some_iff] at h
  obtain ⟨_, _, rfl⟩ := h
  rfl

theorem addToSize_frame {k : Int} (h : s.addToSize c k = some s') : s'.toTree = s.toTree ∧ s'.pos = s.pos := by
  unfold State.addToSize at h
  simp only at h
  split_ifs at h
  cases h
  exact ⟨rfl, rfl⟩

theorem foldlM_frame {f : State → ChunkId → Option State} {cs : List ChunkId}
    (hf : ∀ s c s', f s c = some s' → s'.toTree = s.toTree ∧ s'.pos = s.pos)
    (h : cs.foldlM f s = some s') : s'.toTree = s.toTree ∧ s'.pos = s.pos := by
  induction cs generalizing s with
  | nil => cases h; exact ⟨rfl, rfl⟩
  | cons c cs ih =>
    rw [List.foldlM_cons, Option.bind_eq_bind, Option.bind_eq_some_iff] at h
    obtain ⟨s₁, h₁, h⟩ := h
    obtain ⟨ht, hp⟩ := ih h
    obtain ⟨ht₁, hp₁⟩ := hf s c s₁ h₁
    exact ⟨ht.trans ht₁, hp.trans hp₁⟩

theorem growSizes_frame (h : growSizes c x s = some s') : s'.toTree = s.toTree ∧ s'.pos = s.pos :=
  foldlM_frame (fun _ _ _ => addToSize_frame) h

theorem shrinkSizes_frame {k : State → Nat} (h : shrinkSizes c k s = some s') :
    s'.toTree = s.toTree ∧ s'.pos = s.pos := by
  refine foldlM_frame (fun s d s' h => ?_) h
  split_ifs at h
  · exact addToSize_frame h
  · cases h; exact ⟨rfl, rfl⟩

theorem ensurePosition_toHeap (h : ensurePosition env c x s = some s') : s'.toHeap = s.toHeap := by
  unfold ensurePosition at h
  split_ifs at h
  · cases h; rfl
  · exact updatePos_toHeap h

theorem updateSizesAndAuthorities_toTree (h : updateSizesAndAuthorities env c x s = some s') :
    s'.toTree = s.toTree := by
  unfold updateSizesAndAuthorities at h
  rw [Option.bind_eq_bind, Option.bind_eq_some_iff] at h
  obtain ⟨s₁, h₁, h⟩ := h
  rw [updatePos_toHeap h]
  exact (growSizes_frame h₁).1

theorem refreshNext_toHeap (h : refreshNext env x s = some s') : s'.toHeap = s.toHeap := by
  unfold refreshNext at h
  split at h
  · cases h; rfl
  · split at h
    · cases h; rfl
    · rw [updatePos_toHeap h]
      rfl

theorem specialCaseFirst_toHeap (h : specialCaseFirst env y x s = some s') : s'.toHeap = s.toHeap := by
  unfold specialCaseFirst at h
  split_ifs at h
  · exact updatePos_toHeap h
  · cases h; rfl

end Frame

/-! ## Operations: an edit, and the sizes above it -/

section Operations

variable {env : Env} {a : ChunkId} {pt : Option ChunkId}

theorem growSizes_of_updateSizesAndAuthorities (h : updateSizesAndAuthorities env c x s = some s') :
    ∃ s₁, growSizes c x s = some s₁ ∧ s'.toHeap = s₁.toHeap := by
  unfold updateSizesAndAuthorities at h
  rw [Option.bind_eq_bind, Option.bind_eq_some_iff] at h
  obtain ⟨s₁, h₁, h⟩ := h
  exact ⟨s₁, h₁, updatePos_toHeap h⟩

theorem append_inv (h : append env c x s = some s') :
    ∃ s₁ s₂, s₁.toHeap = (placeLast c x s).toHeap ∧ growSizes c x s₁ = some s₂ ∧ s'.toHeap = s₂.toHeap := by
  unfold append at h
  simp only [Option.bind_eq_bind, Option.bind_eq_some_iff] at h
  obtain ⟨s₁, h₁, h⟩ := h
  obtain ⟨s₂, h₂, hs'⟩ := growSizes_of_updateSizesAndAuthorities h
  exact ⟨s₁, s₂, ensurePosition_toHeap h₁, h₂, hs'⟩

theorem append_toTree (h : append env c x s = some s') : s'.toTree = (placeLast c x s).toTree := by
  obtain ⟨s₁, s₂, h₁, h₂, hs'⟩ := append_inv h
  rw [hs', (growSizes_frame h₂).1, h₁]

theorem append_placed (hfits : (s.kind c).fits (s.kind x)) (h : append env c x s = some s') :
    Placed s.toTree s'.toTree c (s.children c) x [] :=
  append_toTree h ▸ placeLast_placed hfits

theorem insertAfter_inv (h : insertAfter env c pt x s = some s') :
    ∃ s₁ s₂, s₁.toHeap = (placeAfter c pt x s).toHeap ∧ growSizes c x s₁ = some s₂ ∧
      s'.toHeap = s₂.toHeap := by
  unfold insertAfter at h
  simp only [Option.bind_eq_bind, Option.bind_eq_some_iff] at h
  obtain ⟨s₁, h₁, s₂, h₂, h⟩ := h
  obtain ⟨s₃, h₃, hs₃⟩ := growSizes_of_updateSizesAndAuthorities h₂
  exact ⟨s₁, s₃, ensurePosition_toHeap h₁, h₃, (refreshNext_toHeap h).trans hs₃⟩

theorem insertAfter_toTree (h : insertAfter env c pt x s = some s') :
    s'.toTree = (placeAfter c pt x s).toTree := by
  obtain ⟨s₁, s₂, h₁, h₂, hs'⟩ := insertAfter_inv h
  rw [hs', (growSizes_frame h₂).1, h₁]

theorem insertAfter_placed (hfits : (s.kind c).fits (s.kind x)) (ho : s.Owned)
    (hsplit : s.children c = l ++ a :: r) (h : insertAfter env c (some a) x s = some s') :
    Placed s.toTree s'.toTree c (l ++ [a]) x r :=
  insertAfter_toTree h ▸ placeAfter_placed hfits ho hsplit

theorem insertBefore_inv (h : insertBefore env c (some a) x s = some s') :
    ∃ s₀ s₁ s₂, placeBefore c a x s = some s₀ ∧ s₁.toHeap = s₀.toHeap ∧ growSizes c x s₁ = some s₂ ∧
      s'.toHeap = s₂.toHeap := by
  simp only [insertBefore, Option.bind_eq_bind, Option.bind_eq_some_iff] at h
  obtain ⟨s₀, h₀, s₁, h₁, s₂, h₂, h⟩ := h
  obtain ⟨s₃, h₃, hs'⟩ := growSizes_of_updateSizesAndAuthorities h
  exact ⟨s₀, s₂, s₃, h₀, (specialCaseFirst_toHeap h₂).trans (ensurePosition_toHeap h₁), h₃, hs'⟩

theorem insertBefore_toTree (h : insertBefore env c (some a) x s = some s') :
    ∃ s₀, placeBefore c a x s = some s₀ ∧ s'.toTree = s₀.toTree := by
  obtain ⟨s₀, s₁, s₂, h₀, h₁, h₂, hs'⟩ := insertBefore_inv h
  refine ⟨s₀, h₀, ?_⟩
  rw [hs', (growSizes_frame h₂).1, h₁]

theorem insertBefore_placed (hfits : (s.kind c).fits (s.kind x)) (ho : s.Owned)
    (hsplit : s.children c = l ++ a :: r) (h : insertBefore env c (some a) x s = some s') :
    Placed s.toTree s'.toTree c l x (a :: r) := by
  obtain ⟨s₀, h₀, ht⟩ := insertBefore_toTree h
  obtain ⟨s₁, h₁, hp⟩ := placeBefore_placed hfits ho hsplit
  cases h₁.symm.trans h₀
  exact ht ▸ hp

theorem remove_inv (h : remove env c x s = some s') :
    ∃ s₁, shrinkSizes c (fun s => s.size x) ((unlink x s).genericRemove c x) = some s₁ ∧
      s'.toHeap = s₁.toHeap := by
  unfold remove at h
  simp only [Option.bind_eq_bind, Option.bind_eq_some_iff] at h
  obtain ⟨s₁, h₁, h⟩ := h
  exact ⟨s₁, h₁, updatePos_toHeap h⟩

theorem remove_toTree (h : remove env c x s = some s') :
    s'.toTree = ((unlink x s).genericRemove c x).toTree := by
  obtain ⟨s₁, h₁, hs'⟩ := remove_inv h
  rw [hs', (shrinkSizes_frame h₁).1]

theorem removeLast_inv {n : Nat} (h : removeLast env c n s = some s') :
    ∃ k s₀ s₁, dropLastChildren c n s = some (k, s₀) ∧ shrinkSizes c (fun _ => k) s₀ = some s₁ ∧
      s'.toHeap = s₁.toHeap := by
  unfold removeLast at h
  simp only [Option.bind_eq_bind, Option.bind_eq_some_iff] at h
  obtain ⟨⟨k, s₀⟩, h₀, s₁, h₁, h⟩ := h
  exact ⟨k, s₀, s₁, h₀, h₁, updatePos_toHeap h⟩

theorem removeLast_toTree {n : Nat} (h : removeLast env c n s = some s') :
    ∃ k s₀, dropLastChildren c n s = some (k, s₀) ∧ s'.toTree = s₀.toTree := by
  obtain ⟨k, s₀, s₁, h₀, h₁, hs'⟩ := removeLast_inv h
  exact ⟨k, s₀, h₀, by rw [hs', (shrinkSizes_frame h₁).1]⟩

/-- `prepend` is one of the two. -/
theorem prepend_eq (env : Env) (c x : ChunkId) (s : State) :
    prepend env c x s = insertBefore env c (s.children c).head? x s := by
  unfold prepend
  cases s.children c with
  | nil => rfl
  | cons a l => rfl

/-- Dropping the last children leaves the rest of the list. -/
theorem dropLastChildren_spec {m : List ChunkId} (hsplit : s.children c = l ++ m) :
    ∃ s', dropLastChildren c m.length s = some ((m.map s.size).sum, s') ∧ s'.kind = s.kind ∧
      s'.parent = s.parent ∧ s'.children = Function.update s.children c l ∧ s'.size = s.size ∧
      s'.pos = s.pos := by
  induction m using List.reverseRecOn generalizing s with
  | nil =>
    rw [List.append_nil] at hsplit
    exact ⟨s, rfl, rfl, rfl, by rw [← hsplit, Function.update_eq_self], rfl, rfl⟩
  | append_singleton m x ih =>
    rw [← List.append_assoc] at hsplit
    obtain ⟨s₁, h₁, ht, hsize, hpos⟩ := dropLastChild_taken hsplit
    have hsplit₁ : s₁.children c = l ++ m := by
      rw [ht.children, Function.update_self, List.append_nil]
    obtain ⟨s', h', hk, hp, hc, hsize', hpos'⟩ := ih hsplit₁
    refine ⟨s', ?_, hk.trans ht.kind, hp.trans ht.parent, ?_, hsize'.trans hsize, hpos'.trans hpos⟩
    · rw [List.length_append, List.length_singleton, dropLastChildren]
      simp [h₁, h', hsize, add_comm]
    · rw [hc, ht.children, Function.update_idem]

theorem dropLastChildren_length {n k : Nat} (h : dropLastChildren c n s = some (k, s')) :
    n ≤ (s.children c).length := by
  induction n generalizing s k with
  | zero => exact Nat.zero_le _
  | succ n ih =>
    simp only [dropLastChildren, Option.bind_eq_bind, Option.bind_eq_some_iff, Option.pure_def,
      Option.some.injEq, Prod.mk.injEq] at h
    obtain ⟨⟨j, s₁⟩, h₁, ⟨i, s₂⟩, h₂, -, rfl⟩ := h
    cases hlast : s.children c using List.reverseRecOn with
    | nil => simp [dropLastChild, hlast] at h₁
    | append_singleton l x =>
      obtain ⟨s₃, h₃, ht, -⟩ := dropLastChild_taken hlast
      cases h₃.symm.trans h₁
      have := ih h₂
      rw [ht.children, Function.update_self, List.append_nil] at this
      simpa using this

/-- The loop follows the `previousSibling` pointers only. -/
theorem dropLastChildren_threaded {n k : Nat} (ho : s.Owned) (ht : s.Threaded)
    (h : dropLastChildren c n s = some (k, s')) :
    s'.Owned ∧ s'.Threaded ∧ ∀ y, y ∉ s.children c → s'.nextSibling y = s.nextSibling y := by
  induction n generalizing s k with
  | zero => cases h; exact ⟨ho, ht, fun _ _ => rfl⟩
  | succ n ih =>
    simp only [dropLastChildren, Option.bind_eq_bind, Option.bind_eq_some_iff, Option.pure_def,
      Option.some.injEq, Prod.mk.injEq] at h
    obtain ⟨⟨j, s₁⟩, h₁, ⟨i, s₂⟩, h₂, -, rfl⟩ := h
    cases hlast : s.children c using List.reverseRecOn with
    | nil => simp [dropLastChild, hlast] at h₁
    | append_singleton l x =>
      have hu := dropLastChild_unspliced hlast (ht.prev_eq hlast) h₁
      obtain ⟨ho', ht', hnext⟩ := ih (hu.owned ho) (hu.threaded ho ht) h₂
      refine ⟨ho', ht', fun y hy => ?_⟩
      rw [hnext y fun hmem => hy (hlast ▸ (hu.sublist c).subset hmem)]
      exact hu.next_other fun hmem => hy (List.mem_append_left _ (List.mem_of_mem_getLast? hmem))

/-! ### Vectors of instructions -/

section Vectors

variable (Inv : State → Prop) {xs : List ChunkId} {g : State → ChunkId → Option State}

theorem Placed.insertable_tail (hp : Placed t t' c l x r) (hxs : ∀ y ∈ x :: xs, t.Insertable c y)
    (hnd : (x :: xs).Nodup) : ∀ y ∈ xs, t'.Insertable c y := by
  intro y hy
  exact hp.insertable (hxs y (List.mem_cons_of_mem x hy)) fun he => (List.nodup_cons.1 hnd).1 (he ▸ hy)

/-- A loop of insertions at one place. -/
theorem foldlM_insert (hg : ∀ s x s', Inv s → s.Insertable c x → (∀ a ∈ pt, a ∈ s.children c) →
      g s x = some s' → Inv s' ∧ ∃ l r, Placed s.toTree s'.toTree c l x r)
    (hs : Inv s) (hxs : ∀ x ∈ xs, s.Insertable c x) (hnd : xs.Nodup) (hpt : ∀ a ∈ pt, a ∈ s.children c)
    (h : xs.foldlM g s = some s') : Inv s' := by
  induction xs generalizing s with
  | nil => cases h; exact hs
  | cons x xs ih =>
    rw [List.foldlM_cons, Option.bind_eq_bind, Option.bind_eq_some_iff] at h
    obtain ⟨s₁, h₁, h⟩ := h
    obtain ⟨hs₁, l, r, hp⟩ := hg s x s₁ hs (hxs x List.mem_cons_self) hpt h₁
    exact ih hs₁ (hp.insertable_tail hxs hnd) (List.nodup_cons.1 hnd).2
      (fun a ha => hp.mem_iff.2 (.inl (hpt a ha))) h

/-- Insertions each behind the one before. -/
theorem insertAllAfter_invariant (hg : ∀ s a x s', Inv s → s.Insertable c x → a ∈ s.children c →
      insertAfter env c (some a) x s = some s' → Inv s' ∧ ∃ l r, Placed s.toTree s'.toTree c l x r)
    (hs : Inv s) (hxs : ∀ x ∈ xs, s.Insertable c x) (hnd : xs.Nodup) (ha : a ∈ s.children c)
    (h : insertAllAfter env c (some a) xs s = some s') : Inv s' := by
  induction xs generalizing s a with
  | nil => cases h; exact hs
  | cons x xs ih =>
    simp only [insertAllAfter, Option.bind_eq_bind, Option.bind_eq_some_iff] at h
    obtain ⟨s₁, h₁, h⟩ := h
    obtain ⟨hs₁, l, r, hp⟩ := hg s a x s₁ hs (hxs x List.mem_cons_self) ha h₁
    exact ih hs₁ (hp.insertable_tail hxs hnd) (List.nodup_cons.1 hnd).2 (hp.mem_iff.2 (.inr ⟨rfl, rfl⟩)) h

theorem insertAllAfter_none_inv (h : insertAllAfter env c none (x :: xs) s = some s') :
    ∃ s₁, insertAfter env c none x s = some s₁ ∧ insertAllAfter env c (some x) xs s₁ = some s' := by
  simpa only [insertAllAfter, Option.bind_eq_bind, Option.bind_eq_some_iff] using h

theorem insertAfter_none_placed (hfits : (s.kind c).fits (s.kind x)) (h : insertAfter env c none x s = some s') :
    Placed s.toTree s'.toTree c [] x (s.children c) :=
  insertAfter_toTree h ▸ placeAfter_none_placed hfits

theorem insertBeforeJumpTo_inv (h : insertBeforeJumpTo env c (some a) x s = some s') :
    ∃ s₁, insertAfter env c (some a) x s = some s₁ ∧ s' = swapSemantics a x s₁ := by
  simp only [insertBeforeJumpTo, Option.bind_eq_bind, Option.bind_eq_some_iff, Option.pure_def,
    Option.some.injEq] at h
  obtain ⟨s₁, h₁, rfl⟩ := h
  exact ⟨s₁, h₁, rfl⟩

end Vectors

/-! ### Splitting a block -/

variable {m : List ChunkId} {b point newBlock : ChunkId}

theorem foldl_clearPointers (m : List ChunkId) (s : State) :
    (m.foldl clearPointers s).toHeap =
      { s.toHeap with
        parent := fun y => if y ∈ m then none else s.parent y
        previousSibling := fun y => if y ∈ m then none else s.previousSibling y
        nextSibling := fun y => if y ∈ m then none else s.nextSibling y } ∧
    (m.foldl clearPointers s).pos = fun y => if y ∈ m then none else s.pos y := by
  induction m generalizing s with
  | nil => exact ⟨rfl, rfl⟩
  | cons x m ih =>
    have hif : ∀ {α : Type} (g : ChunkId → Option α) (y : ChunkId),
        (if y ∈ m then none else Function.update g x none y) = if y ∈ x :: m then none else g y := by
      intro α g y
      by_cases hyx : y = x
      · simp [hyx]
      · simp [hyx]
    rw [List.foldl_cons, (ih _).1, (ih _).2]
    simp [clearPointers, State.setPreviousSibling, State.setNextSibling, State.setParent, State.setPosition, hif]

theorem appendMoved_inv (h : appendMoved env c s x = some s') :
    ∃ s₁, append env c x s = some s₁ ∧ s'.toHeap = s₁.toHeap := by
  simp only [appendMoved, Option.bind_eq_bind, Option.bind_eq_some_iff] at h
  obtain ⟨s₁, h₁, h⟩ := h
  exact ⟨s₁, h₁, updatePos_toHeap h⟩

/-- A loop of calls of `append`. -/
theorem foldlM_appendMoved_toTree (hfits : ∀ x ∈ m, (s.kind c).fits (s.kind x))
    (h : m.foldlM (appendMoved env c) s = some s') :
    s'.kind = s.kind ∧ s'.children = Function.update s.children c (s.children c ++ m) ∧
      s'.parent = fun y => if y ∈ m then some c else s.parent y := by
  induction m generalizing s with
  | nil =>
    cases h
    exact ⟨rfl, by rw [List.append_nil, Function.update_eq_self], rfl⟩
  | cons x m ih =>
    rw [List.foldlM_cons, Option.bind_eq_bind, Option.bind_eq_some_iff] at h
    obtain ⟨s₁, h₁, h⟩ := h
    obtain ⟨s₂, h₂, hs₁⟩ := appendMoved_inv h₁
    have hp := append_placed (hfits x List.mem_cons_self) h₂
    rw [← hs₁] at hp
    obtain ⟨hk, hc, hpar⟩ := ih (fun y hy => by rw [hp.kind]; exact hfits y (List.mem_cons_of_mem x hy)) h
    refine ⟨hk.trans hp.kind, ?_, ?_⟩
    · rw [hc, hp.children, Function.update_idem, Function.update_self, List.append_assoc]
      rfl
    · rw [hpar, hp.parent]
      funext y
      by_cases hyx : y = x
      · simp [hyx]
      · simp [hyx]

theorem splitBlockBefore_inv (ho : s.Owned) (hfresh : s.Fresh newBlock)
    (hsplit : s.children b = l ++ point :: r)
    (h : splitBlockBefore env c point newBlock s = some s') : ∃ s₁ s₂ s₃,
      s₁.toHeap = (s.newBlock newBlock).toHeap ∧ removeLast env b (point :: r).length s₁ = some s₂ ∧
      (point :: r).foldlM (appendMoved env newBlock) ((point :: r).foldl clearPointers s₂) = some s₃ ∧
      insertAfter env c (some b) newBlock s₃ = some s' := by
  have hpar : s.parent point = some b := ho.parent (by simp [hsplit])
  have hchildren : (s.newBlock newBlock).children b = l ++ point :: r := by
    unfold State.newBlock
    by_cases hb : b = newBlock
    · rw [hb] at hsplit
      simp [hfresh.children] at hsplit
    · simp [hb, hsplit]
  simp only [splitBlockBefore, hpar, Option.bind_eq_bind, Option.bind_some, hsplit] at h
  simp only [List.append_eq_nil_iff, reduceCtorEq, and_false, if_false, Option.bind_eq_some_iff] at h
  obtain ⟨-, -, s₁, h₁, i, hi, s₂, h₂, s₃, h₃, h⟩ := h
  have hs₁ := updatePos_toHeap h₁
  have hc₁ : s₁.children b = l ++ point :: r := by rw [hs₁, hchildren]
  rw [hc₁, idxOf?_middle (ho.notMem hsplit).1, Option.some.injEq] at hi
  subst hi
  rw [hc₁] at h₂ h₃
  have hlen : (l ++ point :: r).length - l.length = (point :: r).length := by simp
  rw [List.drop_left] at h₃
  rw [hlen] at h₂
  exact ⟨s₁, s₂, s₃, hs₁, h₂, h₃, h⟩

theorem newBlock_children (hfresh : s.Fresh b) : (s.newBlock b).children = s.children := by
  unfold State.newBlock
  dsimp only
  rw [← hfresh.children, Function.update_eq_self]

theorem removeLast_tail (hsplit : s.children c = l ++ m) (h : removeLast env c m.length s = some s') :
    s'.kind = s.kind ∧ s'.parent = s.parent ∧ s'.children = Function.update s.children c l := by
  obtain ⟨k, s₀, h₀, ht⟩ := removeLast_toTree h
  obtain ⟨s₁, h₁, hk, hp, hc, -⟩ := dropLastChildren_spec hsplit
  cases h₁.symm.trans h₀
  rw [ht]
  exact ⟨hk, hp, hc⟩

/-- What is cut off the end of a list is in no list. -/
theorem detached_of_cut (ho : t.Owned) (hsplit : t.children c = l ++ m)
    (hchildren : t'.children = Function.update t.children c l) (hx : x ∈ m) : t'.Detached x := by
  intro d hd
  rw [hchildren] at hd
  by_cases hdc : d = c
  · subst hdc
    rw [Function.update_self] at hd
    have hnd := ho.nodup d
    rw [hsplit] at hnd
    exact (List.nodup_append.1 hnd).2.2 x hd x hx rfl
  · rw [Function.update_of_ne hdc] at hd
    exact hdc (ho.unique hd (hsplit ▸ List.mem_append_right l hx))

theorem newBlock_attached (hfresh : s.Fresh b) (hx : x ∈ s.children c) :
    (s.newBlock b).parent x = s.parent x ∧ (s.newBlock b).kind x = s.kind x ∧ (s.newBlock b).kind c = s.kind c ∧
      (s.newBlock b).previousSibling x = s.previousSibling x ∧ (s.newBlock b).nextSibling x = s.nextSibling x := by
  have hxb : x ≠ b := fun h => hfresh.detached c (h ▸ hx)
  have hcb : c ≠ b := by
    rintro rfl
    simp [hfresh.children] at hx
  unfold State.newBlock
  simp [hxb, hcb]

theorem clearPointers_attached (hm : ∀ x ∈ m, s.Detached x) (hx : x ∈ s.children c) :
    (m.foldl clearPointers s).parent x = s.parent x ∧
      (m.foldl clearPointers s).previousSibling x = s.previousSibling x ∧
      (m.foldl clearPointers s).nextSibling x = s.nextSibling x := by
  have hxm : x ∉ m := fun h => hm x h c hx
  rw [(foldl_clearPointers m s).1]
  simp [hxm]

theorem newBlock_kind (b : ChunkId) (s : State) :
    (s.newBlock b).kind b = .block ∧ ∀ y, y ≠ b → (s.newBlock b).kind y = s.kind y :=
  ⟨Function.update_self .., fun _ hy => Function.update_of_ne hy ..⟩

/-- The chunks around a split are of three kinds. -/
theorem kinds_of_split (ho : t.Owned) (hb : b ∈ t.children c) (hx : x ∈ t.children b) :
    t.kind c = .function ∧ t.kind b = .block ∧ t.kind x = .instruction := by
  have hkb := ho.fits hb
  have hkx := ho.fits hx
  revert hkb hkx
  cases t.kind c <;> cases t.kind b <;> cases t.kind x <;> simp [Kind.fits]

section Split

variable {s₁ s₂ s₃ : State} (ho : s.Owned) (hb : b ∈ s.children c) (hsplit : s.children b = l ++ point :: r)
  (hfresh : s.Fresh newBlock) (hs₁ : s₁.toHeap = (s.newBlock newBlock).toHeap)
  (h₂ : removeLast env b (point :: r).length s₁ = some s₂)
  (h₃ : (point :: r).foldlM (appendMoved env newBlock) ((point :: r).foldl clearPointers s₂) = some s₃)
include ho hb hsplit hfresh hs₁ h₂

/-- The instructions behind the split point leave the old block, and fit into the new one. -/
theorem split_cut : s₂.kind = (s.newBlock newBlock).kind ∧ s₂.parent = (s.newBlock newBlock).parent ∧
    s₂.children = Function.update s.children b l ∧ (∀ x ∈ point :: r, s₂.Detached x) ∧
    ∀ x ∈ point :: r, ((point :: r).foldl clearPointers s₂).Insertable newBlock x := by
  have hc₁ : s₁.children = s.children := by rw [hs₁, newBlock_children hfresh]
  have hsplit₁ : s₁.children b = l ++ point :: r := by rw [hc₁, hsplit]
  obtain ⟨hk₂, hp₂, hc₂⟩ := removeLast_tail hsplit₁ h₂
  rw [hc₁] at hc₂
  have hcut : ∀ x ∈ point :: r, s₂.Detached x := fun x hx => detached_of_cut ho hsplit hc₂ hx
  rw [hs₁] at hk₂ hp₂
  refine ⟨hk₂, hp₂, hc₂, hcut, fun x hx => ⟨?_, ?_⟩⟩
  · intro d hd
    rw [(foldl_clearPointers (point :: r) s₂).1] at hd
    exact hcut x hx d hd
  · have hxb : x ∈ s.children b := by rw [hsplit]; exact List.mem_append_right l hx
    rw [(foldl_clearPointers (point :: r) s₂).1]
    dsimp only
    rw [hk₂, (newBlock_kind newBlock s).1, (newBlock_kind newBlock s).2 x fun he => hfresh.detached b (he ▸ hxb),
      (kinds_of_split ho hb hxb).2.2]
    rfl

include h₃

/-- The new block then holds them, and can be inserted behind the old one. -/
theorem split_moved : s₃.kind = (s.newBlock newBlock).kind ∧
    s₃.children = Function.update (Function.update s.children b l) newBlock (point :: r) ∧
    (∀ y, s₃.parent y = if y ∈ point :: r then some newBlock else (s.newBlock newBlock).parent y) ∧
    s₃.Insertable c newBlock ∧ b ∈ s₃.children c := by
  have hbn : b ≠ newBlock := fun he => hfresh.detached c (he ▸ hb)
  have hcn : c ≠ newBlock := by
    rintro rfl
    simp [hfresh.children] at hb
  have hpoint : point ∈ s.children b := by simp [hsplit]
  obtain ⟨hkc, hkb, -⟩ := kinds_of_split ho hb hpoint
  have hcb : c ≠ b := by
    rintro rfl
    rw [hkc] at hkb
    cases hkb
  obtain ⟨hk₂, hp₂, hc₂, -, hins⟩ := split_cut ho hb hsplit hfresh hs₁ h₂
  obtain ⟨hk₃, hc₃, hp₃⟩ := foldlM_appendMoved_toTree (fun x hx => (hins x hx).fits) h₃
  rw [(foldl_clearPointers (point :: r) s₂).1] at hk₃ hc₃ hp₃
  dsimp only at hk₃ hc₃ hp₃
  rw [hc₂, Function.update_of_ne hbn.symm, hfresh.children, List.nil_append] at hc₃
  refine ⟨hk₃.trans hk₂, hc₃, ?_, ⟨?_, ?_⟩, ?_⟩
  · intro y
    rw [hp₃, hp₂]
    by_cases hy : y ∈ point :: r
    · simp only [hy, if_true]
    · simp only [hy, if_false]
  · intro d hd
    rw [hc₃] at hd
    by_cases hdn : d = newBlock
    · subst hdn
      rw [Function.update_self] at hd
      exact hfresh.detached b (by rw [hsplit]; exact List.mem_append_right l hd)
    · rw [Function.update_of_ne hdn] at hd
      by_cases hdb : d = b
      · subst hdb
        rw [Function.update_self] at hd
        exact hfresh.detached d (by rw [hsplit]; exact List.mem_append_left _ hd)
      · rw [Function.update_of_ne hdb] at hd
        exact hfresh.detached d hd
  · rw [hk₃, hk₂, (newBlock_kind newBlock s).1, (newBlock_kind newBlock s).2 c hcn, hkc]
    rfl
  · rw [hc₃, Function.update_of_ne hcn, Function.update_of_ne hcb]
    exact hb

end Split

end Operations

end Egalito.Mutator
