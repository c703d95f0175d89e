import Egalito.Lib.Run
import Egalito.Mutator.Splice
/-!
# Sibling pointers

In every run of mutator operations the sibling pointers of the children of a
chunk are their neighbours in its child list, as long as two kinds of calls do
not happen: `insertAfter` with a null insert point on a list that is not empty,
which does not tell the old first child about the new one, and `append` to such
a list of a chunk that still has a `nextSibling` from an earlier place.
-/

namespace Egalito.Mutator

open Lib ChunkMutator

variable {t t' : Tree} {s s' : State} {env : Env} {c d x y a : ChunkId} {l r : List ChunkId}
  {n : Option ChunkId}

/-- Every child points to its parent and to its neighbours, and is in one list only. -/
structure Tree.Linked (t : Tree) : Prop where
  owned : t.Owned
  threaded : t.Threaded
  last : ∀ c, ∀ x ∈ (t.children c).getLast?, t.nextSibling x = none

namespace Tree.Linked

theorem prev_eq (hl : t.Linked) (hsplit : t.children c = l ++ x :: r) : t.previousSibling x = l.getLast? :=
  hl.threaded.prev_eq hsplit

theorem next_eq (hl : t.Linked) (hsplit : t.children c = l ++ x :: r) : t.nextSibling x = r.head? :=
  hl.threaded.next_eq hsplit (hl.last c x)

/-- Only what is in a child list matters. -/
theorem congr (hl : t.Linked) (hchildren : t'.children = t.children)
    (hattached : ∀ c x, x ∈ t.children c → t'.parent x = t.parent x ∧ t'.kind x = t.kind x ∧
      t'.kind c = t.kind c ∧ t'.previousSibling x = t.previousSibling x ∧ t'.nextSibling x = t.nextSibling x) :
    t'.Linked := by
  refine ⟨hl.owned.congr hchildren fun c x hx => ?_, ?_, ?_⟩
  · obtain ⟨hp, hk, hkc, -⟩ := hattached c x hx
    exact ⟨hp, hk, hkc⟩
  · exact hl.threaded.congr hchildren fun c x hx => (hattached c x hx).2.2.2
  · intro c x hx
    rw [hchildren] at hx
    rw [(hattached c x (List.mem_of_mem_getLast? hx)).2.2.2.2]
    exact hl.last c x hx

end Tree.Linked

theorem Spliced.linked (hp : Spliced t t' c l x r n) (hl : t.Linked) (hx : t.Detached x)
    (hfits : (t.kind c).fits (t.kind x)) (hn : n = r.head?) : t'.Linked := by
  refine ⟨hp.owned hl.owned hx hfits, hp.threaded hl.owned hx hl.threaded (fun _ => hn), ?_⟩
  intro d y hy
  have hc := hp.split
  rw [hp.children] at hy
  by_cases hd : d = c
  · subst hd
    rw [Function.update_self] at hy
    cases r using List.reverseRecOn with
    | nil =>
      simp only [List.getLast?_concat, Option.mem_some_iff] at hy
      rw [hp.next, if_pos hy.symm, hn]
      rfl
    | append_singleton r z =>
      rw [← List.cons_append, ← List.append_assoc, List.getLast?_concat, Option.mem_some_iff] at hy
      subst hy
      have hz : z ∈ t.children d := by simp [hc]
      rw [hp.next_other (fun h => hx d (h ▸ hz))]
      · exact hl.last d z (by simp [hc])
      · intro h
        have hnd := hl.owned.nodup d
        rw [hc] at hnd
        exact (List.nodup_append.1 hnd).2.2 z (List.mem_of_mem_getLast? h) z (by simp) rfl
  · rw [Function.update_of_ne hd] at hy
    have hyd := List.mem_of_mem_getLast? hy
    rw [hp.next_other (fun h => hx d (h ▸ hyd))]
    · exact hl.last d y hy
    · intro h
      exact hd (hl.owned.unique hyd (hc ▸ List.mem_append_left r (List.mem_of_mem_getLast? h)))

theorem Unspliced.linked (hp : Unspliced t t' c l x r) (hl : t.Linked) : t'.Linked := by
  refine ⟨hp.owned hl.owned, hp.threaded hl.owned hl.threaded, ?_⟩
  intro d y hy
  have hc := hp.split
  rw [hp.children] at hy
  by_cases hd : d = c
  · subst hd
    rw [Function.update_self] at hy
    cases r using List.reverseRecOn with
    | nil =>
      rw [List.append_nil] at hy
      rw [hp.next, if_pos (Option.mem_def.1 hy)]
      rfl
    | append_singleton r z =>
      rw [← List.append_assoc, List.getLast?_concat, Option.mem_some_iff] at hy
      subst hy
      rw [hp.next_other]
      · exact hl.last d z (by rw [hc, ← List.cons_append, ← List.append_assoc, List.getLast?_concat]; rfl)
      · intro h
        have hnd := hl.owned.nodup d
        rw [hc] at hnd
        exact (List.nodup_append.1 hnd).2.2 z (List.mem_of_mem_getLast? h) z (by simp) rfl
  · rw [Function.update_of_ne hd] at hy
    rw [hp.next_other]
    · exact hl.last d y hy
    · intro h
      exact hd (hl.owned.unique (List.mem_of_mem_getLast? hy)
        (hc ▸ List.mem_append_left _ (List.mem_of_mem_getLast? h)))

/-! ## Operations -/

/-- `append` clears the `nextSibling` of a first child only. -/
def Tree.Appendable (t : Tree) (c x : ChunkId) : Prop := t.children c = [] ∨ t.nextSibling x = none

/-- The calls that leave no wrong pointer. The chunks of a vector are appended one by one,
so that only the first of them can find an empty list. -/
def Op.Clean (t : Tree) (c : ChunkId) : Op → Prop
  | append x | insertBefore none x | insertBeforeJumpTo none x => t.Appendable c x
  | insertAfter none _ => t.children c = []
  | insertAllAfter none xs => xs = [] ∨ t.children c = []
  | insertAllBefore none xs beforeJumpTo =>
    let xs := if beforeJumpTo then xs.reverse else xs
    (∀ x ∈ xs.head?, t.Appendable c x) ∧ ∀ x ∈ xs.tail, t.nextSibling x = none
  | _ => True

section Operations

theorem append_linked (hl : s.Linked) (hx : s.Insertable c x) (hclean : s.Appendable c x)
    (h : append env c x s = some s') : s'.Linked := by
  rw [append_toTree h]
  refine (placeLast_spliced hx.fits hx.detached).linked hl hx.detached hx.fits ?_
  rcases hclean with h | h
  · simp [h]
  · simp [h]

theorem insertAfter_linked (hl : s.Linked) (hx : s.Insertable c x) (ha : a ∈ s.children c)
    (h : insertAfter env c (some a) x s = some s') : s'.Linked := by
  obtain ⟨l, r, hsplit⟩ := List.append_of_mem ha
  rw [insertAfter_toTree h]
  exact (placeAfter_spliced hx.fits hx.detached hl.owned hsplit (hl.next_eq hsplit)).linked hl hx.detached
    hx.fits rfl

theorem insertAfter_none_linked (hl : s.Linked) (hx : s.Insertable c x) (hempty : s.children c = [])
    (h : insertAfter env c none x s = some s') : s'.Linked := by
  rw [insertAfter_toTree h]
  exact (placeAfter_none_spliced hx.fits hempty).linked hl hx.detached hx.fits (by simp [hempty])

theorem insertBefore_linked (hl : s.Linked) (hx : s.Insertable c x) (ha : a ∈ s.children c)
    (h : insertBefore env c (some a) x s = some s') : s'.Linked := by
  obtain ⟨l, r, hsplit⟩ := List.append_of_mem ha
  obtain ⟨s₀, h₀, ht⟩ := insertBefore_toTree h
  rw [ht]
  exact (placeBefore_spliced hx.fits hx.detached hl.owned hsplit (hl.prev_eq hsplit) h₀).linked hl
    hx.detached hx.fits rfl

theorem remove_linked (hl : s.Linked) (hx : x ∈ s.children c) (h : remove env c x s = some s') :
    s'.Linked := by
  obtain ⟨l, r, hsplit⟩ := List.append_of_mem hx
  rw [remove_toTree h]
  exact (unlink_unspliced hl.owned hsplit (hl.prev_eq hsplit) (hl.next_eq hsplit)).linked hl

theorem dropLastChildren_linked {n k : Nat} (hl : s.Linked) (h : dropLastChildren c n s = some (k, s')) :
    s'.Linked := by
  induction n generalizing s k with
  | zero => cases h; exact hl
  | succ n ih =>
    simp only [dropLastChildren, Option.bind_eq_bind, Option.bind_eq_some_iff, Option.pure_def,
      Option.some.injEq, Prod.mk.injEq] at h
    obtain ⟨⟨j, s₁⟩, h₁, ⟨i, s₂⟩, h₂, -, rfl⟩ := h
    refine ih ?_ h₂
    cases hlast : s.children c using List.reverseRecOn with
    | nil => simp [dropLastChild, hlast] at h₁
    | append_singleton l x => exact (dropLastChild_unspliced hlast (hl.prev_eq hlast) h₁).linked hl

theorem removeLast_linked {n : Nat} (hl : s.Linked) (h : removeLast env c n s = some s') : s'.Linked := by
  obtain ⟨k, s₀, h₀, ht⟩ := removeLast_toTree h
  rw [ht]
  exact dropLastChildren_linked hl h₀

/-! ### Vectors of instructions -/

variable {xs : List ChunkId}

theorem insertAllAfter_linked (hl : s.Linked) (hxs : ∀ x ∈ xs, s.Insertable c x) (hnd : xs.Nodup)
    (ha : a ∈ s.children c) (h : insertAllAfter env c (some a) xs s = some s') : s'.Linked := by
  refine insertAllAfter_invariant (fun s : State => s.Linked) (fun s a x s' hl hx ha h => ?_) hl hxs hnd ha h
  obtain ⟨l, r, hsplit⟩ := List.append_of_mem ha
  exact ⟨insertAfter_linked hl hx ha h, l ++ [a], r, insertAfter_placed hx.fits hl.owned hsplit h⟩

theorem insertAllAfter_none_linked (hl : s.Linked) (hxs : ∀ x ∈ xs, s.Insertable c x) (hnd : xs.Nodup)
    (hclean : xs = [] ∨ s.children c = []) (h : insertAllAfter env c none xs s = some s') : s'.Linked := by
  cases xs with
  | nil => cases h; exact hl
  | cons x xs =>
    obtain ⟨s₁, h₁, h⟩ := insertAllAfter_none_inv h
    have hx := hxs x List.mem_cons_self
    have hp := insertAfter_none_placed hx.fits h₁
    have hempty := hclean.resolve_left (List.cons_ne_nil x xs)
    exact insertAllAfter_linked (insertAfter_none_linked hl hx hempty h₁) (hp.insertable_tail hxs hnd)
      (List.nodup_cons.1 hnd).2 (hp.mem_iff.2 (.inr ⟨rfl, rfl⟩)) h

/-- A loop of calls of `append`, each possibly followed by something that keeps the tree. -/
theorem foldlM_append_linked {f : State → ChunkId → Option State}
    (hf : ∀ s x s', f s x = some s' → ∃ s₁, append env c x s = some s₁ ∧ s'.toTree = s₁.toTree)
    (hl : s.Linked) (hxs : ∀ x ∈ xs, s.Insertable c x) (hnd : xs.Nodup)
    (hhead : ∀ x ∈ xs.head?, s.Appendable c x) (htail : ∀ x ∈ xs.tail, s.nextSibling x = none)
    (h : xs.foldlM f s = some s') : s'.Linked := by
  induction xs generalizing s with
  | nil => cases h; exact hl
  | cons x xs ih =>
    rw [List.foldlM_cons, Option.bind_eq_bind, Option.bind_eq_some_iff] at h
    obtain ⟨s₁, h₁, h⟩ := h
    obtain ⟨s₂, h₂, ht⟩ := hf s x s₁ h₁
    have hx := hxs x List.mem_cons_self
    have hl₁ : s₁.Linked := ht ▸ append_linked hl hx (hhead x rfl) h₂
    have hp := placeLast_spliced hx.fits hx.detached
    rw [← append_toTree h₂, ← ht] at hp
    have hne : ∀ y ∈ xs, y ≠ x := fun y hy he => (List.nodup_cons.1 hnd).1 (he ▸ hy)
    have hnext : ∀ y ∈ xs, s₁.nextSibling y = none := by
      intro y hy
      rw [hp.next_other (hne y hy)]
      · exact htail y hy
      · exact fun hlast => (hxs y (List.mem_cons_of_mem x hy)).detached c (List.mem_of_mem_getLast? hlast)
    refine ih hl₁ (hp.insertable_tail hxs hnd) (List.nodup_cons.1 hnd).2 ?_ ?_ h
    · intro y hy
      exact .inr (hnext y (List.mem_of_mem_head? hy))
    · intro y hy
      exact hnext y (List.mem_of_mem_tail hy)

theorem insertBeforeJumpTo_linked (hl : s.Linked) (hx : s.Insertable c x) (ha : a ∈ s.children c)
    (h : insertBeforeJumpTo env c (some a) x s = some s') : s'.Linked := by
  obtain ⟨s₁, h₁, rfl⟩ := insertBeforeJumpTo_inv h
  change s₁.Linked
  exact insertAfter_linked hl hx ha h₁

theorem insertAllBefore_linked {j : Bool} (hl : s.Linked) (hxs : ∀ x ∈ xs, s.Insertable c x) (hnd : xs.Nodup)
    (ha : a ∈ s.children c) (h : insertAllBefore env c (some a) xs j s = some s') : s'.Linked := by
  have hpt : ∀ b ∈ some a, b ∈ s.children c := by simpa using ha
  unfold insertAllBefore at h
  cases j with
  | false =>
    refine foldlM_insert (fun s : State => s.Linked) (fun s x s' hl hx hpt h => ?_) hl hxs hnd hpt h
    obtain ⟨l, r, hsplit⟩ := List.append_of_mem (hpt a rfl)
    exact ⟨insertBefore_linked hl hx (hpt a rfl) h, l, a :: r, insertBefore_placed hx.fits hl.owned hsplit h⟩
  | true =>
    refine foldlM_insert (fun s : State => s.Linked) (fun s x s' hl hx hpt h => ?_) hl
      (fun x hx => hxs x (List.mem_reverse.1 hx)) (List.nodup_reverse.2 hnd) hpt h
    obtain ⟨s₁, h₁, rfl⟩ := insertBeforeJumpTo_inv h
    obtain ⟨l, r, hsplit⟩ := List.append_of_mem (hpt a rfl)
    change s₁.Linked ∧ ∃ l r, Placed s.toTree s₁.toTree c l x r
    exact ⟨insertAfter_linked hl hx (hpt a rfl) h₁, l ++ [a], r, insertAfter_placed hx.fits hl.owned hsplit h₁⟩

theorem insertAllBefore_none_linked {j : Bool} (hl : s.Linked) (hxs : ∀ x ∈ xs, s.Insertable c x)
    (hnd : xs.Nodup) (hclean : (Op.insertAllBefore none xs j).Clean s.toTree c)
    (h : insertAllBefore env c none xs j s = some s') : s'.Linked := by
  unfold insertAllBefore at h
  cases j with
  | false => exact foldlM_append_linked (fun s x s' h => ⟨s', h, rfl⟩) hl hxs hnd hclean.1 hclean.2 h
  | true =>
    exact foldlM_append_linked (fun s x s' h => ⟨s', h, rfl⟩) hl (fun x hx => hxs x (List.mem_reverse.1 hx))
      (List.nodup_reverse.2 hnd) hclean.1 hclean.2 h

/-! ### Splitting a block -/

variable {b point newBlock : ChunkId}

theorem newBlock_linked (hl : s.Linked) (hfresh : s.Fresh b) : (s.newBlock b).Linked := by
  exact hl.congr (newBlock_children hfresh) fun c x hx => newBlock_attached hfresh hx

theorem clearPointers_linked {m : List ChunkId} (hl : s.Linked) (hm : ∀ x ∈ m, s.Detached x) :
    (m.foldl clearPointers s).Linked := by
  refine hl.congr (by rw [(foldl_clearPointers m s).1]) fun c x hx => ?_
  obtain ⟨hp, hprev, hnext⟩ := clearPointers_attached hm hx
  refine ⟨hp, ?_, ?_, hprev, hnext⟩ <;> rw [(foldl_clearPointers m s).1]

theorem splitBlockBefore_linked (hl : s.Linked) (hb : b ∈ s.children c) (hpoint : point ∈ s.children b)
    (hfresh : s.Fresh newBlock) (h : splitBlockBefore env c point newBlock s = some s') : s'.Linked := by
  obtain ⟨l, r, hsplit⟩ := List.append_of_mem hpoint
  obtain ⟨s₁, s₂, s₃, hs₁, h₂, h₃, h⟩ := splitBlockBefore_inv hl.owned hfresh hsplit h
  have hl₁ : s₁.Linked := by
    rw [hs₁]
    exact newBlock_linked hl hfresh
  have hl₂ := removeLast_linked hl₁ h₂
  obtain ⟨-, -, -, hcut, hins⟩ := split_cut hl.owned hb hsplit hfresh hs₁ h₂
  have hmoved : ∀ s x s', appendMoved env newBlock s x = some s' →
      ∃ s₁, append env newBlock x s = some s₁ ∧ s'.toTree = s₁.toTree := by
    intro s x s' h
    obtain ⟨s₁, h₁, hs'⟩ := appendMoved_inv h
    exact ⟨s₁, h₁, by rw [hs']⟩
  have hnext : ∀ x ∈ point :: r, ((point :: r).foldl clearPointers s₂).nextSibling x = none := by
    intro x hx
    rw [(foldl_clearPointers (point :: r) s₂).1]
    exact if_pos hx
  have hnd : (point :: r).Nodup := by
    have hnd := hl.owned.nodup b
    rw [hsplit] at hnd
    exact (List.nodup_append.1 hnd).2.1
  have hl₃ : s₃.Linked := foldlM_append_linked hmoved (clearPointers_linked hl₂ hcut) hins hnd
    (fun x hx => .inr (hnext x (List.mem_of_mem_head? hx))) (fun x hx => hnext x (List.mem_of_mem_tail hx)) h₃
  obtain ⟨-, -, -, hinsert, hb₃⟩ := split_moved hl.owned hb hsplit hfresh hs₁ h₂ h₃
  exact insertAfter_linked hl₃ hinsert hb₃ h

end Operations

/-! ## Runs -/

def Step.Clean (t : Tree) : Step → Prop
  | call c op => op.Clean t c
  | destroy _ => True

theorem Op.run_linked {op : Op} (hl : s.Linked) (hlegal : op.Legal s.toTree c) (hclean : op.Clean s.toTree c)
    (h : op.run env c s = some s') : s'.Linked := by
  cases op with
  | prepend x =>
    change ChunkMutator.prepend env c x s = some s' at h
    rw [prepend_eq] at h
    cases hc : s.children c with
    | nil =>
      rw [hc] at h
      exact append_linked hl hlegal (.inl hc) h
    | cons a l =>
      rw [hc] at h
      exact insertBefore_linked hl hlegal (by simp [hc]) h
  | append x => exact append_linked hl hlegal hclean h
  | insertAfter pt x =>
    cases pt with
    | none => exact insertAfter_none_linked hl hlegal.1 hclean h
    | some a => exact insertAfter_linked hl hlegal.1 (hlegal.2 a rfl) h
  | insertBefore pt x =>
    cases pt with
    | none => exact append_linked hl hlegal.1 hclean h
    | some a => exact insertBefore_linked hl hlegal.1 (hlegal.2 a rfl) h
  | insertBeforeJumpTo pt x =>
    obtain ⟨-, hx, ha⟩ := hlegal
    cases pt with
    | none => exact append_linked hl hx hclean h
    | some a => exact insertBeforeJumpTo_linked hl hx (ha a rfl) h
  | insertAllAfter pt xs =>
    obtain ⟨-, hxs, hnd, ha⟩ := hlegal
    cases pt with
    | none => exact insertAllAfter_none_linked hl hxs hnd hclean h
    | some a => exact insertAllAfter_linked hl hxs hnd (ha a rfl) h
  | insertAllBefore pt xs j =>
    obtain ⟨-, hxs, hnd, ha⟩ := hlegal
    cases pt with
    | none => exact insertAllBefore_none_linked hl hxs hnd hclean h
    | some a => exact insertAllBefore_linked hl hxs hnd (ha a rfl) h
  | remove x => exact remove_linked hl hlegal h
  | removeLast n => exact removeLast_linked hl h
  | splitBlockBefore point b =>
    obtain ⟨⟨block, hblock, hpoint⟩, hfresh⟩ := hlegal
    exact splitBlockBefore_linked hl hblock hpoint hfresh h

theorem Step.run_linked {step : Step} (hl : s.Linked) (hlegal : step.Legal s.toTree)
    (hclean : step.Clean s.toTree) (h : step.run env s = some s') : s'.Linked := by
  cases step with
  | call c op =>
    simp only [Step.run] at h
    split_ifs at h
    exact op.run_linked hl hlegal hclean h
  | destroy c =>
    rw [updatePos_toHeap h]
    exact hl

namespace Tree

/-- The pointers of every child are its neighbours and its parent, and it is there once. -/
structure Exact (t : Tree) : Prop where
  neighbours : ∀ {c l x r}, t.children c = l ++ x :: r →
    t.previousSibling x = l.getLast? ∧ t.nextSibling x = r.head?
  parent : ∀ {c x}, x ∈ t.children c → t.parent x = some c
  unique : ∀ {c d x}, x ∈ t.children c → x ∈ t.children d → c = d
  nodup : ∀ c, (t.children c).Nodup

/-- A list of blocks holds blocks, a list of instructions holds instructions. -/
def Typed (t : Tree) : Prop := ∀ c x, x ∈ t.children c → (t.kind c).fits (t.kind x)

theorem Linked.exact (hl : t.Linked) : t.Exact :=
  ⟨fun hsplit => ⟨hl.prev_eq hsplit, hl.next_eq hsplit⟩, hl.owned.parent, hl.owned.unique, hl.owned.nodup⟩

theorem Exact.linked (he : t.Exact) (ht : t.Typed) : t.Linked := by
  refine ⟨⟨he.parent, he.nodup, ht _ _⟩, fun c => chained_of_neighbours ?_ ?_, ?_⟩
  · intro l x r hsplit
    rw [(he.neighbours hsplit).1, Option.or_none]
  · intro l x r hsplit
    exact (he.neighbours hsplit).2
  · intro c x hx
    obtain ⟨l, hsplit⟩ := List.getLast?_eq_some_iff.1 hx
    exact (he.neighbours (r := []) hsplit).2

end Tree

/-- In every run of legal operations that never insert behind a null point into a list
with children, and never append to such a list a chunk with a stale `nextSibling`, the
sibling and parent pointers stay exact. -/
theorem sibling_pointers_exact {steps : List Step} (htyped : s.Typed) (hexact : s.Exact)
    (hsteps : Along (Step.run env) (fun s step => step.Legal s.toTree ∧ step.Clean s.toTree) s steps)
    (hrun : exec env s steps = some s') : s'.Exact := by
  have hlinked := foldlM_invariant (fun s : State => s.Linked)
    (fun s step s' hl hstep h => Step.run_linked hl hstep.1 hstep.2 h) (hexact.linked htyped) hsteps hrun
  exact hlinked.exact

/-! ### A function with one block of one instruction, and an instruction to insert -/

def sampleState : State where
  kind c := if c = 0 then .function else if c = 1 then .block else .instruction
  parent c := if c = 1 then some 0 else if c = 2 then some 1 else none
  previousSibling _ := none
  nextSibling _ := none
  children c := if c = 0 then [1] else if c = 1 then [2] else []
  size c := if c ≤ 2 then 4 else 3
  pos c := if c = 0 then some (.absolute 0x1000) else if c ≤ 2 then some (.offset 0) else none

def sampleEnv : Env := ⟨.offset, 5⟩

theorem sampleState_typed : sampleState.Typed := by
  intro c x hx
  simp only [sampleState] at hx ⊢
  split_ifs at hx with h0 h1
  · simp_all [Kind.fits]
  · simp_all [Kind.fits]
  · simp at hx

theorem sampleState_exact : sampleState.Exact := by
  have hsplit : ∀ {c x : ChunkId} {l r : List ChunkId}, sampleState.children c = l ++ x :: r →
      l = [] ∧ r = [] := by
    intro c x l r h
    simp only [sampleState] at h
    split_ifs at h <;> cases l <;> simp_all
  have hmem : ∀ {c x : ChunkId}, x ∈ sampleState.children c → (c = 0 ∧ x = 1) ∨ (c = 1 ∧ x = 2) := by
    intro c x h
    simp only [sampleState] at h
    split_ifs at h <;> simp_all
  refine ⟨?_, ?_, ?_, ?_⟩
  · intro c l x r h
    obtain ⟨rfl, rfl⟩ := hsplit h
    exact ⟨rfl, rfl⟩
  · intro c x h
    rcases hmem h with ⟨rfl, rfl⟩ | ⟨rfl, rfl⟩ <;> rfl
  · intro c d x hc hd
    rcases hmem hc with ⟨rfl, rfl⟩ | ⟨rfl, rfl⟩ <;> rcases hmem hd with ⟨rfl, h⟩ | ⟨rfl, h⟩ <;> simp_all
  · intro c
    simp only [sampleState]
    split_ifs <;> simp

theorem sampleState_insertable : sampleState.Insertable 1 3 := by
  refine ⟨?_, rfl⟩
  intro c h
  simp only [sampleState] at h
  split_ifs at h <;> simp_all

/-- Insert behind the instruction, then remove it. -/
def sampleSteps : List Step := [.call 1 (.insertAfter (some 2) 3), .call 1 (.remove 2), .destroy 1]

theorem sibling_pointers_exact_sample : ∃ s', exec sampleEnv sampleState sampleSteps = some s' ∧ s'.Exact := by
  have hsome : (exec sampleEnv sampleState sampleSteps).isSome := by decide +kernel
  obtain ⟨s', hs'⟩ := Option.isSome_iff_exists.1 hsome
  refine ⟨s', hs', sibling_pointers_exact sampleState_typed sampleState_exact ?_ hs'⟩
  refine ⟨⟨⟨sampleState_insertable, by simp [sampleState]⟩, trivial⟩, fun s₁ h₁ => ?_⟩
  have hmem : (2 : ChunkId) ∈ s₁.children 1 := by
    have hp := insertAfter_placed (c := 1) (l := []) (a := 2) (r := []) sampleState_insertable.fits
      (sampleState_exact.linked sampleState_typed).owned rfl h₁
    exact hp.mem_iff.2 (.inl (by simp [sampleState]))
  exact ⟨⟨hmem, trivial⟩, fun s₂ _ => ⟨⟨trivial, trivial⟩, fun _ _ => trivial⟩⟩

/-- Inserting behind a null point leaves the old first child without a predecessor. -/
theorem null_insert_point_breaks_links : ∃ s', sampleState.Typed ∧ sampleState.Exact ∧
    (Step.call 1 (.insertAfter none 3)).Legal sampleState.toTree ∧
    exec sampleEnv sampleState [.call 1 (.insertAfter none 3)] = some s' ∧ s'.children 1 = [3, 2] ∧
    s'.previousSibling 2 = none ∧ ¬ s'.Exact := by
  have hsome : (exec sampleEnv sampleState [.call 1 (.insertAfter none 3)]).isSome := by decide +kernel
  obtain ⟨s', hs'⟩ := Option.isSome_iff_exists.1 hsome
  have hrun : exec sampleEnv sampleState [.call 1 (.insertAfter none 3)] =
      insertAfter sampleEnv 1 none 3 sampleState := by
    simp [exec, Step.run, Op.run, sampleState]
  have htree := insertAfter_toTree (hrun ▸ hs')
  have hchildren : s'.children 1 = [3, 2] := by rw [htree]; decide
  have hprev : s'.previousSibling 2 = none := by rw [htree]; decide
  refine ⟨s', sampleState_typed, sampleState_exact, ⟨sampleState_insertable, by simp⟩, hs', hchildren, hprev, ?_⟩
  intro he
  have := (he.neighbours (l := [3]) (x := 2) (r := []) hchildren).1
  rw [hprev] at this
  cases this

end Egalito.Mutator
