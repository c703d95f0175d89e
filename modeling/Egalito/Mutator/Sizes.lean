import Egalito.Mutator.Links
/-!
# Stored sizes

The size of a block is the sum of the sizes of its instructions, and the size of
the function the sum of the sizes of its blocks, in every state that a run of
mutators on the function and its blocks reaches. The operations change the sizes
of a chunk and of the chunks above it by one amount, which `Measured.adjust`
compares with the change of the child list. It needs nothing of the sibling pointers.
-/

namespace Egalito.Mutator

open Lib ChunkMutator

variable {h h' : Heap} {s s' : State} {env : Env} {f b c x y a : ChunkId} {l r m : List ChunkId}

/-- The sum of the sizes of some chunks. -/
def Heap.sum (h : Heap) (l : List ChunkId) : Nat := (l.map h.size).sum

/-- A function at the top of its tree, with exact sizes. -/
structure Heap.Measured (h : Heap) (f : ChunkId) : Prop where
  owned : h.Owned
  kind : h.kind f = .function
  parent : h.parent f = none
  block : ∀ b ∈ h.children f, h.size b = h.sum (h.children b)
  function : h.size f = h.sum (h.children f)

namespace Heap

@[simp]
theorem sum_nil : h.sum [] = 0 := rfl

@[simp]
theorem sum_cons : h.sum (x :: l) = h.size x + h.sum l := List.sum_cons

@[simp]
theorem sum_append : h.sum (l ++ r) = h.sum l + h.sum r := by simp [sum]

theorem sum_congr (hl : ∀ y ∈ l, h'.size y = h.size y) : h'.sum l = h.sum l := by
  unfold sum
  rw [List.map_congr_left hl]

theorem size_le_sum (hx : x ∈ l) : h.size x ≤ h.sum l := List.single_le_sum (by simp) _ (List.mem_map_of_mem hx)

namespace Measured

variable (hm : h.Measured f)
include hm

theorem block_kind (hb : b ∈ h.children f) : h.kind b = .block := by
  have := hm.owned.fits hb
  rw [hm.kind] at this
  revert this
  cases h.kind b <;> simp [Kind.fits]

theorem instruction_kind (hb : b ∈ h.children f) (hx : x ∈ h.children b) : h.kind x = .instruction :=
  (kinds_of_split hm.owned hb hx).2.2

theorem ancestors_function : h.ancestors f = [f] := by
  unfold Tree.ancestors
  simp [hm.parent]

theorem ancestors_block (hb : b ∈ h.children f) : h.ancestors b = [b, f] := by
  unfold Tree.ancestors
  simp [hm.owned.parent hb, hm.parent]

theorem ne_function (hx : x ∈ h.children c) : x ≠ f := by
  rintro rfl
  have := hm.owned.fits hx
  rw [hm.kind] at this
  revert this
  cases h.kind c <;> simp [Kind.fits]

/-- A new child list of the function or of a block, with the change of its sum added to the
sizes from there on up. -/
theorem adjust (ho : h'.Owned) (hkind : h'.kind = h.kind) (hparent : h'.parent f = none)
    (hc : c = f ∨ c ∈ h.children f) (hchildren : h'.children = Function.update h.children c l)
    (hblock : c = f → ∀ b ∈ l, h.size b = h.sum (h.children b))
    (hsame : ∀ y, y ∉ h.ancestors c → h'.size y = h.size y)
    (hadd : ∀ y ∈ h.ancestors c, h'.size y + h.sum (h.children c) = h.size y + h.sum l) :
    h'.Measured f := by
  have hne : ∀ {d y}, y ∈ h'.children d → y ≠ f := by
    rintro d y hy rfl
    have := ho.fits hy
    rw [hkind, hm.kind] at this
    revert this
    cases h.kind d <;> simp [Kind.fits]
  have hlist : h'.children c = l := by rw [hchildren, Function.update_self]
  have hother : ∀ d, d ≠ c → h'.children d = h.children d := fun d hd => by
    rw [hchildren, Function.update_of_ne hd]
  rcases hc with rfl | hc
  · have hsize : ∀ y, y ≠ c → h'.size y = h.size y := fun y hy => hsame y (by
      rw [hm.ancestors_function]
      simpa using hy)
    have hsum : ∀ d, h'.sum (h'.children d) = h.sum (h'.children d) := fun d =>
      sum_congr fun y hy => hsize y (hne hy)
    refine ⟨ho, by rw [hkind, hm.kind], hparent, ?_, ?_⟩
    · intro b hb
      rw [hsum, hsize b (hne hb), hother b (hne hb)]
      exact hblock rfl b (hlist ▸ hb)
    · have hc := hadd c (by simp [hm.ancestors_function])
      rw [hsum, hlist]
      have := hm.function
      omega
  · have hcf := hm.ne_function hc
    have hsize : ∀ y, y ≠ c → y ≠ f → h'.size y = h.size y := fun y hyc hyf => hsame y (by
      rw [hm.ancestors_block hc]
      simp [hyc, hyf])
    have hfun : h'.children f = h.children f := hother f hcf.symm
    -- the list of a block holds instructions, so not the block whose size changes
    have hsum : ∀ d ∈ h.children f, h'.sum (h'.children d) = h.sum (h'.children d) := by
      intro d hd
      refine sum_congr fun y hy => hsize y ?_ (hne hy)
      rintro rfl
      have hk := ho.fits hy
      rw [hkind, hm.block_kind hd, hm.block_kind hc] at hk
      cases hk
    have hblockSize := hadd c (by simp [hm.ancestors_block hc])
    have hfunSize := hadd f (by simp [hm.ancestors_block hc])
    have hcSize := hm.block c hc
    refine ⟨ho, by rw [hkind, hm.kind], hparent, ?_, ?_⟩
    · intro b hb
      rw [hfun] at hb
      rw [hsum b hb]
      by_cases hbc : b = c
      · subst hbc
        rw [hlist]
        omega
      · rw [hsize b hbc (hm.ne_function hb), hother b hbc]
        exact hm.block b hb
    · obtain ⟨l₁, r₁, hsplit⟩ := List.append_of_mem hc
      obtain ⟨hl, hr⟩ := hm.owned.notMem hsplit
      have hleft : h'.sum l₁ = h.sum l₁ := sum_congr fun y hy =>
        hsize y (fun he => hl (he ▸ hy)) (hm.ne_function (c := f) (by simp [hsplit, hy]))
      have hright : h'.sum r₁ = h.sum r₁ := sum_congr fun y hy =>
        hsize y (fun he => hr (he ▸ hy)) (hm.ne_function (c := f) (by simp [hsplit, hy]))
      have hf := hm.function
      rw [hsplit, sum_append, sum_cons] at hf
      rw [hfun, hsplit, sum_append, sum_cons, hleft, hright]
      omega

/-- Nothing in the function's tree changes. -/
theorem congr (ho : h'.Owned) (hkind : h'.kind f = h.kind f) (hparent : h'.parent f = none)
    (hchildren : ∀ c, c = f ∨ c ∈ h.children f → h'.children c = h.children c)
    (hsize : ∀ y, y = f ∨ y ∈ h.children f ∨ (∃ b ∈ h.children f, y ∈ h.children b) → h'.size y = h.size y) :
    h'.Measured f := by
  have hf := hchildren f (.inl rfl)
  refine ⟨ho, by rw [hkind, hm.kind], hparent, ?_, ?_⟩
  · intro b hb
    rw [hf] at hb
    rw [hsize b (.inr (.inl hb)), hchildren b (.inr hb), hm.block b hb]
    exact (sum_congr fun y hy => hsize y (.inr (.inr ⟨b, hb, hy⟩))).symm
  · rw [hf, hsize f (.inl rfl), hm.function]
    exact (sum_congr fun y hy => hsize y (.inr (.inl hy))).symm

end Measured

end Heap

/-! ## The two loops over the ancestors -/

theorem addToSize_spec {k : Int} (h : s.addToSize c k = some s') :
    0 ≤ s.size c + k ∧ s' = s.setSize c (s.size c + k).toNat := by
  unfold State.addToSize at h
  simp only at h
  split_ifs at h with hk
  cases h
  exact ⟨hk.1, rfl⟩

theorem foldlM_grow {cs : List ChunkId} (hnd : cs.Nodup) (hx : x ∉ cs)
    (h : cs.foldlM (fun s c => s.addToSize c (s.size x)) s = some s') :
    ∀ y, s'.size y = if y ∈ cs then s.size y + s.size x else s.size y := by
  induction cs generalizing s with
  | nil =>
    cases h
    intro y
    simp
  | cons c cs ih =>
    rw [List.foldlM_cons, Option.bind_eq_bind, Option.bind_eq_some_iff] at h
    obtain ⟨s₁, h₁, h⟩ := h
    obtain ⟨-, rfl⟩ := addToSize_spec h₁
    rw [List.mem_cons, not_or] at hx
    rw [List.nodup_cons] at hnd
    intro y
    rw [ih hnd.2 hx.2 h y]
    simp only [State.setSize, Function.update_of_ne hx.1]
    by_cases hyc : y = c
    · subst hyc
      have : ((s.size y : Int) + s.size x).toNat = s.size y + s.size x := by omega
      simp [hnd.1, this]
    · simp [hyc]

theorem foldlM_shrink {cs : List ChunkId} {k : State → Nat} (hnd : cs.Nodup)
    (hk : ∀ s c n, c ∈ cs → k (s.setSize c n) = k s)
    (h : cs.foldlM (fun s c => if s.size c ≠ 0 then s.addToSize c (-k s) else some s) s = some s') :
    ∀ y, s'.size y = if y ∈ cs then s.size y - k s else s.size y := by
  induction cs generalizing s with
  | nil =>
    cases h
    intro y
    simp
  | cons c cs ih =>
    rw [List.foldlM_cons, Option.bind_eq_bind, Option.bind_eq_some_iff] at h
    obtain ⟨s₁, h₁, h⟩ := h
    rw [List.nodup_cons] at hnd
    have hk' : ∀ s c n, c ∈ cs → k (s.setSize c n) = k s := fun s c n hc => hk s c n (List.mem_cons_of_mem _ hc)
    -- a size of zero is left alone, and there is nothing to subtract from it
    have hs₁ : k s₁ = k s ∧ s₁.size = Function.update s.size c (s.size c - k s) := by
      split_ifs at h₁ with hzero
      · obtain ⟨hge, rfl⟩ := addToSize_spec h₁
        refine ⟨hk s c _ List.mem_cons_self, ?_⟩
        have : ((s.size c : Int) + -k s).toNat = s.size c - k s := by omega
        simp [State.setSize, this]
      · cases h₁
        refine ⟨rfl, ?_⟩
        have : s.size c - k s = s.size c := by omega
        rw [this, Function.update_eq_self]
    intro y
    rw [ih hnd.2 hk' h y, hs₁.1, hs₁.2]
    by_cases hyc : y = c
    · subst hyc
      simp [hnd.1]
    · simp [hyc]

/-! ## Operations -/

section Operations

theorem Kind.fits_self (k : Kind) : k.fits k = false := by cases k <;> rfl

theorem Kind.fits_function (k : Kind) : k.fits .function = false := by cases k <;> rfl

namespace Heap.Measured

theorem ancestors_eq (hm : h.Measured f) (hc : c = f ∨ c ∈ h.children f) {t : Tree}
    (hcp : t.parent c = h.parent c) (hfp : t.parent f = h.parent f) : t.ancestors c = h.ancestors c := by
  rcases hc with rfl | hc
  · rw [hm.ancestors_function, Tree.ancestors, hcp, hm.parent]
  · rw [hm.ancestors_block hc, Tree.ancestors, hcp, hm.owned.parent hc]
    simp [hfp, hm.parent]

theorem ancestors_nodup (hm : h.Measured f) (hc : c = f ∨ c ∈ h.children f) : (h.ancestors c).Nodup := by
  rcases hc with rfl | hc
  · simp [hm.ancestors_function]
  · simp [hm.ancestors_block hc, hm.ne_function hc]

theorem mem_ancestors (hm : h.Measured f) (hc : c = f ∨ c ∈ h.children f) (hy : y ∈ h.ancestors c) :
    y = c ∨ y = f := by
  rcases hc with rfl | hc
  · rw [hm.ancestors_function] at hy
    simp_all
  · rw [hm.ancestors_block hc] at hy
    simpa using hy

/-- The sizes above a list are at least its sum. -/
theorem sum_le (hm : h.Measured f) (hc : c = f ∨ c ∈ h.children f) (hy : y ∈ h.ancestors c) :
    h.sum (h.children c) ≤ h.size y := by
  rcases hc with rfl | hc
  · rw [hm.ancestors_function, List.mem_singleton] at hy
    rw [hy, hm.function]
  · rw [← hm.block c hc]
    rw [hm.ancestors_block hc, List.mem_cons, List.mem_singleton] at hy
    rcases hy with rfl | rfl
    · exact le_rfl
    · rw [hm.function]
      exact size_le_sum hc

theorem size_le_function (hm : h.Measured f) (hc : c = f ∨ c ∈ h.children f) (hy : y ∈ h.ancestors c) :
    h.size y ≤ h.size f := by
  rcases hc with rfl | hc
  · rw [hm.ancestors_function, List.mem_singleton] at hy
    rw [hy]
  · rw [hm.ancestors_block hc, List.mem_cons, List.mem_singleton] at hy
    rcases hy with rfl | rfl
    · rw [hm.function]
      exact size_le_sum hc
    · exact le_rfl

theorem function_mem_ancestors (hm : h.Measured f) (hc : c = f ∨ c ∈ h.children f) : f ∈ h.ancestors c := by
  rcases hc with rfl | hc
  · simp [hm.ancestors_function]
  · simp [hm.ancestors_block hc]

theorem insertable_ne (hm : h.Measured f) (hx : h.Insertable c x) : f ≠ x ∧ c ≠ x := by
  refine ⟨?_, ?_⟩
  · rintro rfl
    have := hx.fits
    rw [hm.kind, Kind.fits_function] at this
    cases this
  · rintro rfl
    have := hx.fits
    rw [Kind.fits_self] at this
    cases this

theorem ancestors_placed {t : Tree} (hm : h.Measured f) (hc : c = f ∨ c ∈ h.children f) (hx : h.Insertable c x)
    (hp : Placed h.toTree t c l x r) : t.ancestors c = h.ancestors c ∧ x ∉ h.ancestors c := by
  obtain ⟨hxf, hxc⟩ := hm.insertable_ne hx
  refine ⟨hm.ancestors_eq hc ?_ ?_, ?_⟩
  · rw [hp.parent, Function.update_of_ne hxc]
  · rw [hp.parent, Function.update_of_ne hxf]
  · intro hmem
    rcases hm.mem_ancestors hc hmem with h | h
    · exact hxc h.symm
    · exact hxf h.symm

/-- The sizes after an insertion. -/
theorem grown {s₁ s₂ : State} (hm : s.Measured f) (hc : c = f ∨ c ∈ s.children f) (hx : s.Insertable c x)
    (hp : Placed s.toTree s₁.toTree c l x r) (hsize : s₁.size = s.size) (hgrow : growSizes c x s₁ = some s₂) :
    ∀ y, s₂.size y = if y ∈ s.ancestors c then s.size y + s.size x else s.size y := by
  obtain ⟨hanc, hxanc⟩ := hm.ancestors_placed hc hx hp
  unfold growSizes at hgrow
  rw [hanc] at hgrow
  have hs₂ := foldlM_grow (hm.ancestors_nodup hc) hxanc hgrow
  rwa [hsize] at hs₂

/-- An insertion, whatever the sibling pointers are. -/
theorem insert {s₁ s₂ : State} (hm : s.Measured f) (hc : c = f ∨ c ∈ s.children f) (hx : s.Insertable c x)
    (hblock : c = f → s.size x = s.sum (s.children x)) (hp : Placed s.toTree s₁.toTree c l x r)
    (hsize : s₁.size = s.size) (hgrow : growSizes c x s₁ = some s₂) : s₂.Measured f := by
  have hxf := (hm.insertable_ne hx).1
  have htree := (growSizes_frame hgrow).1
  have hs₂ := hm.grown hc hx hp hsize hgrow
  have hsum : s.sum (l ++ x :: r) = s.sum (s.children c) + s.size x := by
    rw [hp.split, sum_append, sum_append, sum_cons]
    omega
  refine hm.adjust (c := c) (l := l ++ x :: r) ?_ ?_ ?_ hc ?_ ?_ ?_ ?_
  · rw [htree]
    exact hp.owned hm.owned hx.detached hx.fits
  · rw [htree, hp.kind]
  · rw [htree, hp.parent, Function.update_of_ne hxf, hm.parent]
  · rw [htree, hp.children]
  · rintro rfl b hb
    rw [List.mem_append, List.mem_cons] at hb
    rcases hb with hb | rfl | hb
    · exact hm.block b (by simp [hp.split, hb])
    · exact hblock rfl
    · exact hm.block b (by simp [hp.split, hb])
  · intro y hy
    rw [hs₂, if_neg hy]
  · intro y hy
    rw [hs₂, if_pos hy, hsum]
    omega

/-- A removal of `k` bytes. -/
theorem cut {s₀ s₁ : State} {k : State → Nat} (hm : s.Measured f) (hc : c = f ∨ c ∈ s.children f)
    (ho : s₀.Owned) (hkind : s₀.kind = s.kind) (hparent : s₀.parent = s.parent)
    (hchildren : s₀.children = Function.update s.children c l) (hsub : l ⊆ s.children c)
    (hsize : s₀.size = s.size) (hk : s.sum l + k s₀ = s.sum (s.children c))
    (hconst : ∀ s y n, y = c ∨ y = f → k (s.setSize y n) = k s) (hshrink : shrinkSizes c k s₀ = some s₁) :
    s₁.Measured f := by
  have hanc : s₀.ancestors c = s.ancestors c := hm.ancestors_eq hc (by rw [hparent]) (by rw [hparent])
  have htree := (shrinkSizes_frame hshrink).1
  unfold shrinkSizes at hshrink
  rw [hanc] at hshrink
  have hs₁ := foldlM_shrink (hm.ancestors_nodup hc)
    (fun s y n hy => hconst s y n (hm.mem_ancestors hc hy)) hshrink
  rw [hsize] at hs₁
  refine hm.adjust (c := c) (l := l) ?_ ?_ ?_ hc ?_ ?_ ?_ ?_
  · rw [htree]
    exact ho
  · rw [htree, hkind]
  · rw [htree, hparent, hm.parent]
  · rw [htree, hchildren]
  · rintro rfl b hb
    exact hm.block b (hsub hb)
  · intro y hy
    rw [hs₁, if_neg hy]
  · intro y hy
    have := hm.sum_le hc hy
    rw [hs₁, if_pos hy]
    omega

end Heap.Measured

variable (hm : s.Measured f) (hc : c = f ∨ c ∈ s.children f)
include hm hc

theorem append_measured (hx : s.Insertable c x) (hblock : c = f → s.size x = s.sum (s.children x))
    (h : append env c x s = some s') : s'.Measured f := by
  obtain ⟨s₁, s₂, h₁, h₂, hs'⟩ := append_inv h
  have hp := placeLast_placed hx.fits
  rw [← h₁] at hp
  rw [hs']
  refine hm.insert hc hx hblock hp ?_ h₂
  rw [h₁, placeLast_toHeap hx.fits, linkLast_toHeap]

theorem insertAfter_measured (hx : s.Insertable c x) (hblock : c = f → s.size x = s.sum (s.children x))
    (ha : a ∈ s.children c) (h : insertAfter env c (some a) x s = some s') : s'.Measured f := by
  obtain ⟨l, r, hsplit⟩ := List.append_of_mem ha
  obtain ⟨s₁, s₂, h₁, h₂, hs'⟩ := insertAfter_inv h
  have hp := placeAfter_placed hx.fits hm.owned hsplit
  rw [← h₁] at hp
  rw [hs']
  refine hm.insert hc hx hblock hp ?_ h₂
  rw [h₁, placeAfter_toHeap hx.fits (hm.owned.fits ha) hsplit (hm.owned.notMem hsplit).1, linkAfter_toHeap]

theorem insertAfter_none_measured (hx : s.Insertable c x) (hblock : c = f → s.size x = s.sum (s.children x))
    (h : insertAfter env c none x s = some s') : s'.Measured f := by
  obtain ⟨s₁, s₂, h₁, h₂, hs'⟩ := insertAfter_inv h
  have hp := placeAfter_none_placed hx.fits
  rw [← h₁] at hp
  rw [hs']
  refine hm.insert hc hx hblock hp ?_ h₂
  rw [h₁, placeAfter_none_toHeap hx.fits, linkAfter_none_toHeap]

theorem insertBefore_measured (hx : s.Insertable c x) (hblock : c = f → s.size x = s.sum (s.children x))
    (ha : a ∈ s.children c) (h : insertBefore env c (some a) x s = some s') : s'.Measured f := by
  obtain ⟨l, r, hsplit⟩ := List.append_of_mem ha
  obtain ⟨s₀, s₁, s₂, h₀, h₁, h₂, hs'⟩ := insertBefore_inv h
  obtain ⟨s₃, h₃, hplaced⟩ := placeBefore_placed hx.fits hm.owned hsplit
  obtain ⟨s₄, h₄, hheap⟩ := placeBefore_toHeap hx.fits (hm.owned.fits ha) hsplit (hm.owned.notMem hsplit).1
  cases h₃.symm.trans h₀
  cases h₄.symm.trans h₀
  rw [← h₁] at hplaced
  rw [hs']
  refine hm.insert hc hx hblock hplaced ?_ h₂
  rw [h₁, hheap, linkBefore_toHeap]

theorem remove_measured (hx : x ∈ s.children c) (h : remove env c x s = some s') : s'.Measured f := by
  obtain ⟨l, r, hsplit⟩ := List.append_of_mem hx
  obtain ⟨s₁, h₁, hs'⟩ := remove_inv h
  have ht := unlink_taken hm.owned hsplit
  have hsize : ((unlink x s).genericRemove c x).size = s.size := by
    unfold State.genericRemove State.setChildren
    split_ifs <;> rw [unlink_toHeap]
  have hxc : x ≠ c := by
    rintro rfl
    have := hm.owned.fits hx
    rw [Kind.fits_self] at this
    cases this
  rw [hs']
  refine hm.cut hc (ht.owned hm.owned) ht.kind ht.parent ht.children ?_ hsize ?_ ?_ h₁
  · have := (ht.sublist c).subset
    rwa [ht.children, Function.update_self] at this
  · rw [hsize, hsplit]
    simp only [Heap.sum_append, Heap.sum_cons]
    omega
  · rintro s y n (rfl | rfl)
    · simp [State.setSize, hxc]
    · simp [State.setSize, hm.ne_function hx]

theorem removeLast_measured {n : Nat} (hn : n ≤ (s.children c).length) (h : removeLast env c n s = some s') :
    s'.Measured f := by
  obtain ⟨l, m, hsplit, rfl⟩ : ∃ l m, s.children c = l ++ m ∧ m.length = n :=
    ⟨_, _, (List.take_append_drop ((s.children c).length - n) _).symm, by simp; omega⟩
  obtain ⟨k, s₀, s₁, h₀, h₁, hs'⟩ := removeLast_inv h
  obtain ⟨s₂, h₂, hkind, hparent, hchildren, hsize, -⟩ := dropLastChildren_spec hsplit
  cases h₂.symm.trans h₀
  have hsub : l ⊆ s.children c := hsplit ▸ List.subset_append_left l m
  have hlist : ∀ d, List.Sublist (s₀.children d) (s.children d) := by
    intro d
    rw [hchildren]
    by_cases hd : d = c
    · subst hd
      rw [Function.update_self, hsplit]
      exact List.sublist_append_left l m
    · rw [Function.update_of_ne hd]
  rw [hs']
  refine hm.cut hc ⟨?_, ?_, ?_⟩ hkind hparent hchildren hsub hsize ?_ (fun _ _ _ _ => rfl) h₁
  · intro d y hy
    rw [hparent]
    exact hm.owned.parent ((hlist d).subset hy)
  · exact fun d => (hm.owned.nodup d).sublist (hlist d)
  · intro d y hy
    rw [hkind]
    exact hm.owned.fits ((hlist d).subset hy)
  · rw [hsplit, Heap.sum_append]
    rfl

theorem removeLast_size {n : Nat} (hyc : y ≠ c) (hyf : y ≠ f) (h : removeLast env c n s = some s') :
    s'.size y = s.size y := by
  obtain ⟨k, s₀, s₁, h₀, h₁, hs'⟩ := removeLast_inv h
  have hn : n ≤ (s.children c).length := dropLastChildren_length h₀
  obtain ⟨l, m, hsplit, rfl⟩ : ∃ l m, s.children c = l ++ m ∧ m.length = n :=
    ⟨_, _, (List.take_append_drop ((s.children c).length - n) _).symm, by simp; omega⟩
  obtain ⟨s₂, h₂, -, hparent, -, hsize, -⟩ := dropLastChildren_spec hsplit
  cases h₂.symm.trans h₀
  unfold shrinkSizes at h₁
  rw [hm.ancestors_eq hc (by rw [hparent]) (by rw [hparent])] at h₁
  rw [hs', foldlM_shrink (hm.ancestors_nodup hc) (fun _ _ _ _ => rfl) h₁ y, if_neg, hsize]
  exact fun hy => (hm.mem_ancestors hc hy).elim hyc hyf

omit hc in
/-- Two neighbours exchange their sizes. -/
theorem swapSemantics_measured (hb : b ∈ s.children f) (hsplit : s.children b = l ++ a :: x :: r) :
    (swapSemantics a x s).Measured f := by
  have ha : a ∈ s.children b := by simp [hsplit]
  have hx : x ∈ s.children b := by simp [hsplit]
  obtain ⟨hal, har⟩ := hm.owned.notMem hsplit
  obtain ⟨hxl, hxr⟩ := hm.owned.notMem (c := b) (l := l ++ [a]) (x := x) (r := r) (by simp [hsplit])
  have hax : a ≠ x := by
    rintro rfl
    exact har List.mem_cons_self
  have hsize : ∀ y, y ≠ a → y ≠ x → (swapSemantics a x s).size y = s.size y := by
    intro y hya hyx
    simp [swapSemantics, State.setSize, hya, hyx]
  -- only the list of `b` has the two
  have hother : ∀ c, c ≠ b → (swapSemantics a x s).sum (s.children c) = s.sum (s.children c) := by
    intro c hcb
    refine Heap.sum_congr fun y hy => hsize y ?_ ?_
    · rintro rfl
      exact hcb (hm.owned.unique hy ha)
    · rintro rfl
      exact hcb (hm.owned.unique hy hx)
  have hblock : ∀ c ∈ s.children f, (swapSemantics a x s).size c = s.size c := by
    intro c hc
    refine hsize c ?_ ?_
    · rintro rfl
      have := hm.instruction_kind hb ha
      rw [hm.block_kind hc] at this
      cases this
    · rintro rfl
      have := hm.instruction_kind hb hx
      rw [hm.block_kind hc] at this
      cases this
  refine ⟨hm.owned, hm.kind, hm.parent, ?_, ?_⟩
  · intro c hc
    change (swapSemantics a x s).size c = (swapSemantics a x s).sum (s.children c)
    rw [hblock c hc, hm.block c hc]
    by_cases hcb : c = b
    · subst hcb
      have hleft : (swapSemantics a x s).sum l = s.sum l := Heap.sum_congr fun y hy =>
        hsize y (fun he => hal (he ▸ hy)) (fun he => hxl (by simp [← he, hy]))
      have hright : (swapSemantics a x s).sum r = s.sum r := Heap.sum_congr fun y hy =>
        hsize y (fun he => har (by simp [← he, hy])) (fun he => hxr (he ▸ hy))
      have ha' : (swapSemantics a x s).size a = s.size x := by
        simp [swapSemantics, State.setSize, Function.update_of_ne hax]
      have hx' : (swapSemantics a x s).size x = s.size a := by
        simp [swapSemantics, State.setSize]
      rw [hsplit]
      simp only [Heap.sum_append, Heap.sum_cons, hleft, hright, ha', hx']
      omega
    · exact (hother c hcb).symm
  · have hfb : f ≠ b := (hm.ne_function hb).symm
    change (swapSemantics a x s).size f = (swapSemantics a x s).sum (s.children f)
    rw [hother f hfb, ← hm.function]
    exact hsize f (hm.ne_function ha).symm (hm.ne_function hx).symm

theorem insertBeforeJumpTo_measured (hkind : s.kind c = .block) (hx : s.Insertable c x) (ha : a ∈ s.children c)
    (h : insertBeforeJumpTo env c (some a) x s = some s') : s'.Measured f := by
  obtain ⟨s₁, h₁, rfl⟩ := insertBeforeJumpTo_inv h
  have hcf : c ≠ f := by
    rintro rfl
    rw [hm.kind] at hkind
    cases hkind
  obtain ⟨l, r, hsplit⟩ := List.append_of_mem ha
  have hp := insertAfter_placed hx.fits hm.owned hsplit h₁
  have hsplit₁ : s₁.children c = l ++ a :: x :: r := by simp [hp.children]
  exact swapSemantics_measured (insertAfter_measured hm hc hx (fun h => absurd h hcf) ha h₁)
    (hp.mem_iff.2 (.inl (hc.resolve_left hcf))) hsplit₁

/-! ### Vectors of instructions -/

variable {xs : List ChunkId} {pt : Option ChunkId}

theorem insertAllAfter_measured (hkind : s.kind c = .block) (hxs : ∀ x ∈ xs, s.Insertable c x)
    (hnd : xs.Nodup) (hpt : ∀ a ∈ pt, a ∈ s.children c) (h : insertAllAfter env c pt xs s = some s') :
    s'.Measured f := by
  have hcf : c ≠ f := by
    rintro rfl
    rw [hm.kind] at hkind
    cases hkind
  have hafter : ∀ (s : State) a x s', (s.Measured f ∧ c ∈ s.children f) → s.Insertable c x → a ∈ s.children c →
      insertAfter env c (some a) x s = some s' →
        (s'.Measured f ∧ c ∈ s'.children f) ∧ ∃ l r, Placed s.toTree s'.toTree c l x r := by
    rintro s a x s' ⟨hm, hc⟩ hx ha h
    obtain ⟨l, r, hsplit⟩ := List.append_of_mem ha
    have hp := insertAfter_placed hx.fits hm.owned hsplit h
    exact ⟨⟨insertAfter_measured hm (.inr hc) hx (fun h => absurd h hcf) ha h, hp.mem_iff.2 (.inl hc)⟩,
      l ++ [a], r, hp⟩
  have hc := hc.resolve_left hcf
  cases pt with
  | some a =>
    exact (insertAllAfter_invariant (fun s : State => s.Measured f ∧ c ∈ s.children f) hafter ⟨hm, hc⟩ hxs hnd
      (hpt a rfl) h).1
  | none =>
    cases xs with
    | nil => cases h; exact hm
    | cons x xs =>
      obtain ⟨s₁, h₁, h⟩ := insertAllAfter_none_inv h
      have hx := hxs x List.mem_cons_self
      have hp := insertAfter_none_placed hx.fits h₁
      exact (insertAllAfter_invariant (fun s : State => s.Measured f ∧ c ∈ s.children f) hafter
        ⟨insertAfter_none_measured hm (.inr hc) hx (fun h => absurd h hcf) h₁, hp.mem_iff.2 (.inl hc)⟩
        (hp.insertable_tail hxs hnd) (List.nodup_cons.1 hnd).2 (hp.mem_iff.2 (.inr ⟨rfl, rfl⟩)) h).1

omit hm hc in
/-- One insertion of the loops of `insertBefore` over a vector. -/
theorem insertOneBefore_measured {j : Bool} (hm : s.Measured f) (hc : c ∈ s.children f) (hx : s.Insertable c x)
    (hpt : ∀ a ∈ pt, a ∈ s.children c)
    (h : (if j then insertBeforeJumpTo env c pt x s else insertBefore env c pt x s) = some s') :
    s'.Measured f ∧ ∃ l r, Placed s.toTree s'.toTree c l x r := by
  have hcf := hm.ne_function hc
  have hblock : c = f → s.size x = s.sum (s.children x) := fun h => absurd h hcf
  cases pt with
  | none =>
    have h : append env c x s = some s' := by cases j <;> exact h
    exact ⟨append_measured hm (.inr hc) hx hblock h, _, _, append_placed hx.fits h⟩
  | some a =>
    have ha := hpt a rfl
    obtain ⟨l, r, hsplit⟩ := List.append_of_mem ha
    cases j with
    | false =>
      exact ⟨insertBefore_measured hm (.inr hc) hx hblock ha h, _, _, insertBefore_placed hx.fits hm.owned hsplit h⟩
    | true =>
      refine ⟨insertBeforeJumpTo_measured hm (.inr hc) (hm.block_kind hc) hx ha h, l ++ [a], r, ?_⟩
      obtain ⟨s₁, h₁, rfl⟩ := insertBeforeJumpTo_inv h
      exact (insertAfter_placed hx.fits hm.owned hsplit h₁ : Placed s.toTree s₁.toTree c (l ++ [a]) x r)

theorem insertAllBefore_measured {j : Bool} (hkind : s.kind c = .block) (hxs : ∀ x ∈ xs, s.Insertable c x)
    (hnd : xs.Nodup) (hpt : ∀ a ∈ pt, a ∈ s.children c) (h : insertAllBefore env c pt xs j s = some s') :
    s'.Measured f := by
  have hcf : c ≠ f := by
    rintro rfl
    rw [hm.kind] at hkind
    cases hkind
  have hstep : ∀ (s : State) x s', (s.Measured f ∧ c ∈ s.children f) → s.Insertable c x →
      (∀ a ∈ pt, a ∈ s.children c) →
      (if j then insertBeforeJumpTo env c pt x s else insertBefore env c pt x s) = some s' →
        (s'.Measured f ∧ c ∈ s'.children f) ∧ ∃ l r, Placed s.toTree s'.toTree c l x r := by
    rintro s x s' ⟨hm, hc⟩ hx hpt h
    obtain ⟨hm', l, r, hp⟩ := insertOneBefore_measured hm hc hx hpt h
    exact ⟨⟨hm', hp.mem_iff.2 (.inl hc)⟩, l, r, hp⟩
  have hs : s.Measured f ∧ c ∈ s.children f := ⟨hm, hc.resolve_left hcf⟩
  unfold insertAllBefore at h
  cases j with
  | false => exact (foldlM_insert (fun s : State => s.Measured f ∧ c ∈ s.children f) hstep hs hxs hnd hpt h).1
  | true =>
    exact (foldlM_insert (fun s : State => s.Measured f ∧ c ∈ s.children f) hstep hs
      (fun x hx => hxs x (List.mem_reverse.1 hx)) (List.nodup_reverse.2 hnd) hpt h).1

/-! ### Splitting a block -/

variable {point newBlock : ChunkId}

omit hc in
theorem newBlock_measured (hfresh : s.Fresh b) (hbf : f ≠ b) : (s.newBlock b).Measured f := by
  have ho : (s.newBlock b).Owned := by
    refine hm.owned.congr (newBlock_children hfresh) fun c x hx => ?_
    obtain ⟨hp, hk, hkc, -⟩ := newBlock_attached hfresh hx
    exact ⟨hp, hk, hkc⟩
  refine hm.congr ho ((newBlock_kind b s).2 f hbf) ?_ (fun c _ => by rw [newBlock_children hfresh]) ?_
  · simp [State.newBlock, hbf, hm.parent]
  · intro y hy
    have hyb : y ≠ b := by
      rintro rfl
      rcases hy with rfl | hy | ⟨c, -, hy⟩
      · exact hbf rfl
      · exact hfresh.detached f hy
      · exact hfresh.detached c hy
    simp [State.newBlock, hyb]

omit hc in
theorem clearPointers_measured (hcut : ∀ x ∈ m, s.Detached x) (hfm : f ∉ m) :
    (m.foldl clearPointers s).Measured f := by
  have hheap := (foldl_clearPointers m s).1
  have ho : (m.foldl clearPointers s).Owned := by
    refine hm.owned.congr (by rw [hheap]) fun c x hx => ⟨(clearPointers_attached hcut hx).1, ?_, ?_⟩ <;>
      rw [hheap]
  refine hm.congr ho (by rw [hheap]) ?_ (fun c _ => by rw [hheap]) (fun y _ => by rw [hheap])
  rw [hheap]
  simp [hfm, hm.parent]

/-- A block outside of the function, with an exact size. -/
structure Outside (s : State) (f b : ChunkId) : Prop where
  measured : s.Measured f
  detached : s.Detached b
  ne : f ≠ b
  parent : s.parent b = none
  size : s.size b = s.sum (s.children b)

omit hm hc in
theorem append_outside (ho : Outside s f b) (hx : s.Insertable b x) (hxf : f ≠ x)
    (h : append env b x s = some s') : Outside s' f b := by
  obtain ⟨s₁, s₂, h₁, h₂, hs'⟩ := append_inv h
  have hp := placeLast_placed hx.fits
  rw [← h₁] at hp
  have hbx : b ≠ x := by
    rintro rfl
    have := hx.fits
    rw [Kind.fits_self] at this
    cases this
  have hsize₁ : s₁.size = s.size := by rw [h₁, placeLast_toHeap hx.fits, linkLast_toHeap]
  have hparent : s₁.parent b = none := by rw [hp.parent, Function.update_of_ne hbx, ho.parent]
  have htree := (growSizes_frame h₂).1
  have hanc : s₁.ancestors b = [b] := by rw [Tree.ancestors, hparent]
  unfold growSizes at h₂
  rw [hanc] at h₂
  have hsize := foldlM_grow (List.nodup_singleton b) (by simpa using hbx.symm) h₂
  rw [hsize₁] at hsize
  have hsame : ∀ y, y ≠ b → s₂.size y = s.size y := fun y hy => by rw [hsize, if_neg (by simpa using hy)]
  have hchildren : ∀ c, c ≠ b → s₂.children c = s.children c := fun c hc => by
    rw [htree, hp.children, Function.update_of_ne hc]
  have howned : s₂.Owned := htree ▸ hp.owned ho.measured.owned hx.detached hx.fits
  have hne : ∀ {c y}, y ∈ s.children c → y ≠ b := fun hy he => ho.detached _ (he ▸ hy)
  rw [← hs'] at hsize hsame htree hchildren howned
  refine ⟨ho.measured.congr howned ?_ ?_ ?_ ?_, ?_, ho.ne, ?_, ?_⟩
  · rw [htree, hp.kind]
  · rw [htree, hp.parent, Function.update_of_ne hxf, ho.measured.parent]
  · rintro c (rfl | hc)
    · exact hchildren c ho.ne
    · exact hchildren c (hne hc)
  · rintro y (rfl | hy | ⟨c, -, hy⟩)
    · exact hsame y ho.ne
    · exact hsame y (hne hy)
    · exact hsame y (hne hy)
  · rw [htree]
    exact hp.detached ho.detached hbx
  · rw [htree, hparent]
  · have hlist : s'.children b = s.children b ++ [x] := by rw [htree, hp.children, Function.update_self]
    rw [hlist, Heap.sum_append, Heap.sum_cons, Heap.sum_nil, hsame x hbx.symm, hsize,
      if_pos (List.mem_singleton_self b), ho.size]
    have : s'.sum (s.children b) = s.sum (s.children b) := Heap.sum_congr fun y hy => hsame y (hne hy)
    omega

omit hm hc in
theorem foldlM_appendMoved_outside (ho : Outside s f b) (hxs : ∀ x ∈ xs, s.Insertable b x) (hnd : xs.Nodup)
    (hf : f ∉ xs) (h : xs.foldlM (appendMoved env b) s = some s') : Outside s' f b := by
  induction xs generalizing s with
  | nil => cases h; exact ho
  | cons x xs ih =>
    rw [List.foldlM_cons, Option.bind_eq_bind, Option.bind_eq_some_iff] at h
    obtain ⟨s₁, h₁, h⟩ := h
    obtain ⟨s₂, h₂, hs₁⟩ := appendMoved_inv h₁
    rw [List.mem_cons, not_or] at hf
    have hx := hxs x List.mem_cons_self
    obtain ⟨hmeas, hdet, hne, hpar, hsize⟩ := append_outside ho hx hf.1 h₂
    have hp := append_placed hx.fits h₂
    rw [← hs₁] at hmeas hdet hpar hsize hp
    exact ih ⟨hmeas, hdet, hne, hpar, hsize⟩ (hp.insertable_tail hxs hnd) (List.nodup_cons.1 hnd).2 hf.2 h

omit hc in
/-- The new block of a split, before it is filled. -/
theorem split_outside {s₁ s₂ : State} (hb : b ∈ s.children f) (hsplit : s.children b = l ++ point :: r)
    (hfresh : s.Fresh newBlock) (hs₁ : s₁.toHeap = (s.newBlock newBlock).toHeap)
    (h₂ : removeLast env b (point :: r).length s₁ = some s₂) :
    Outside ((point :: r).foldl clearPointers s₂) f newBlock ∧ s₂.size newBlock = 0 ∧ f ∉ point :: r := by
  have hfn : f ≠ newBlock := by
    rintro rfl
    simp [hfresh.children] at hb
  have hm₁ : s₁.Measured f := by
    rw [hs₁]
    exact newBlock_measured hm hfresh hfn
  have hc₁ : s₁.children = s.children := by rw [hs₁, newBlock_children hfresh]
  have hm₂ : s₂.Measured f := by
    refine removeLast_measured hm₁ (.inr ?_) ?_ h₂
    · rw [hc₁]
      exact hb
    · rw [hc₁, hsplit]
      simp
  obtain ⟨-, hp₂, hc₂, hcut, -⟩ := split_cut hm.owned hb hsplit hfresh hs₁ h₂
  have hmoved : ∀ x ∈ point :: r, x ∈ s.children b := fun x hx => by
    rw [hsplit]
    exact List.mem_append_right l hx
  have hfm : f ∉ point :: r := fun hx => hm.ne_function (hmoved f hx) rfl
  have hnm : newBlock ∉ point :: r := fun hx => hfresh.detached b (hmoved newBlock hx)
  have hbn : newBlock ≠ b := fun he => hfresh.detached f (he ▸ hb)
  have hsize₂ : s₂.size newBlock = 0 := by
    rw [removeLast_size hm₁ (.inr (hc₁ ▸ hb)) hbn hfn.symm h₂, hs₁]
    simp [State.newBlock]
  have hheap := (foldl_clearPointers (point :: r) s₂).1
  refine ⟨⟨clearPointers_measured hm₂ hcut hfm, ?_, hfn, ?_, ?_⟩, hsize₂, hfm⟩
  · intro d hd
    rw [hheap] at hd
    dsimp only at hd
    rw [hc₂] at hd
    by_cases hdb : d = b
    · subst hdb
      rw [Function.update_self] at hd
      exact hfresh.detached d (by rw [hsplit]; exact List.mem_append_left _ hd)
    · rw [Function.update_of_ne hdb] at hd
      exact hfresh.detached d hd
  · rw [hheap]
    simp [hnm, hp₂, State.newBlock]
  · rw [hheap]
    simp [hc₂, hbn, hfresh.children, hsize₂]

theorem splitBlockBefore_measured (hb : b ∈ s.children c) (hpoint : point ∈ s.children b)
    (hfresh : s.Fresh newBlock) (h : splitBlockBefore env c point newBlock s = some s') : s'.Measured f := by
  obtain ⟨l, r, hsplit⟩ := List.append_of_mem hpoint
  have hcf : c = f := by
    refine hc.resolve_right fun hc => ?_
    have := (kinds_of_split hm.owned hb hpoint).1
    rw [hm.block_kind hc] at this
    cases this
  subst hcf
  obtain ⟨s₁, s₂, s₃, hs₁, h₂, h₃, h⟩ := splitBlockBefore_inv hm.owned hfresh hsplit h
  obtain ⟨hout, -, hcm⟩ := split_outside hm hb hsplit hfresh hs₁ h₂
  obtain ⟨-, -, -, -, hins⟩ := split_cut hm.owned hb hsplit hfresh hs₁ h₂
  have hnd : (point :: r).Nodup := by
    have hnd := hm.owned.nodup b
    rw [hsplit] at hnd
    exact (List.nodup_append.1 hnd).2.1
  have hout₃ := foldlM_appendMoved_outside hout hins hnd hcm h₃
  obtain ⟨-, -, -, hinsert, hb₃⟩ := split_moved hm.owned hb hsplit hfresh hs₁ h₂ h₃
  exact insertAfter_measured hout₃.measured (.inl rfl) hinsert (fun _ => hout₃.size) hb₃ h

end Operations

/-! ## Runs -/

/-- The chunks that an operation inserts. -/
def Op.inserted : Op → List ChunkId
  | prepend x | append x | insertAfter _ x | insertBefore _ x | insertBeforeJumpTo _ x => [x]
  | insertAllAfter _ xs | insertAllBefore _ xs _ => xs
  | _ => []

/-- A mutator of the function or of one of its blocks; a block comes with an exact size. -/
def Step.Within (h : Heap) (f : ChunkId) : Step → Prop
  | call c op => (c = f ∨ c ∈ h.children f) ∧
      ∀ x ∈ op.inserted, h.kind x = .block → h.size x = h.sum (h.children x)
  | destroy _ => True

theorem Step.Within.size_block {op : Op} (hwithin : (Step.call c op).Within h f) (hm : h.Measured f)
    (hx : h.Insertable c x) (hmem : x ∈ op.inserted) (hcf : c = f) : h.size x = h.sum (h.children x) := by
  refine hwithin.2 x hmem ?_
  have := hx.fits
  rw [hcf, hm.kind] at this
  revert this
  cases h.kind x <;> simp [Kind.fits]

theorem Op.run_measured {op : Op} (hm : s.Measured f) (hlegal : op.Legal s.toTree c)
    (hwithin : (Step.call c op).Within s.toHeap f) (h : op.run env c s = some s') : s'.Measured f := by
  have hblock := fun x => hwithin.size_block hm (x := x)
  have hc := hwithin.1
  cases op with
  | prepend x =>
    change ChunkMutator.prepend env c x s = some s' at h
    rw [prepend_eq] at h
    cases hl : s.children c with
    | nil =>
      rw [hl] at h
      exact append_measured hm hc hlegal (hblock x hlegal (by simp [inserted])) h
    | cons a l =>
      rw [hl] at h
      exact insertBefore_measured hm hc hlegal (hblock x hlegal (by simp [inserted])) (by simp [hl]) h
  | append x => exact append_measured hm hc hlegal (hblock x hlegal (by simp [inserted])) h
  | insertAfter pt x =>
    have hx := hblock x hlegal.1 (by simp [inserted])
    cases pt with
    | none => exact insertAfter_none_measured hm hc hlegal.1 hx h
    | some a => exact insertAfter_measured hm hc hlegal.1 hx (hlegal.2 a rfl) h
  | insertBefore pt x =>
    have hx := hblock x hlegal.1 (by simp [inserted])
    cases pt with
    | none => exact append_measured hm hc hlegal.1 hx h
    | some a => exact insertBefore_measured hm hc hlegal.1 hx (hlegal.2 a rfl) h
  | insertBeforeJumpTo pt x =>
    obtain ⟨hkind, hx, ha⟩ := hlegal
    cases pt with
    | none => exact append_measured hm hc hx (hblock x hx (by simp [inserted])) h
    | some a => exact insertBeforeJumpTo_measured hm hc hkind hx (ha a rfl) h
  | insertAllAfter pt xs =>
    obtain ⟨hkind, hxs, hnd, ha⟩ := hlegal
    exact insertAllAfter_measured hm hc hkind hxs hnd ha h
  | insertAllBefore pt xs j =>
    obtain ⟨hkind, hxs, hnd, ha⟩ := hlegal
    exact insertAllBefore_measured hm hc hkind hxs hnd ha h
  | remove x => exact remove_measured hm hc hlegal h
  | removeLast n => exact removeLast_measured hm hc hlegal h
  | splitBlockBefore point b =>
    obtain ⟨⟨block, hblock, hpoint⟩, hfresh⟩ := hlegal
    exact splitBlockBefore_measured hm hc hblock hpoint hfresh h

theorem Step.run_measured {step : Step} (hm : s.Measured f) (hlegal : step.Legal s.toTree)
    (hwithin : step.Within s.toHeap f) (h : step.run env s = some s') : s'.Measured f := by
  cases step with
  | call c op =>
    simp only [Step.run] at h
    split_ifs at h
    exact op.run_measured hm hlegal hwithin h
  | destroy c =>
    rw [updatePos_toHeap h]
    exact hm

/-- In every run of legal operations on a function and its blocks, in whatever position mode,
the stored sizes stay the sums of the sizes of the children. -/
theorem sizes_are_sums {steps : List Step} (hm : s.Measured f)
    (hsteps : Along (Step.run env) (fun s step => step.Legal s.toTree ∧ step.Within s.toHeap f) s steps)
    (hrun : exec env s steps = some s') :
    (∀ b ∈ s'.children f, s'.size b = ((s'.children b).map s'.size).sum) ∧
      s'.size f = ((s'.children f).map s'.size).sum := by
  have hm' := foldlM_invariant (fun s : State => s.Measured f)
    (fun s step s' hm hstep h => Step.run_measured hm hstep.1 hstep.2 h) hm hsteps hrun
  exact ⟨hm'.block, hm'.function⟩

theorem sampleState_measured : sampleState.Measured 0 := by
  refine ⟨(sampleState_exact.linked sampleState_typed).owned, rfl, rfl, ?_, rfl⟩
  intro b hb
  obtain rfl : b = 1 := by simpa [sampleState] using hb
  rfl

theorem sizes_are_sums_sample : ∃ s', exec sampleEnv sampleState sampleSteps = some s' ∧
    (∀ b ∈ s'.children 0, s'.size b = ((s'.children b).map s'.size).sum) ∧
      s'.size 0 = ((s'.children 0).map s'.size).sum := by
  have hsome : (exec sampleEnv sampleState sampleSteps).isSome := by decide +kernel
  obtain ⟨s', hs'⟩ := Option.isSome_iff_exists.1 hsome
  refine ⟨s', hs', sizes_are_sums sampleState_measured ?_ hs'⟩
  refine ⟨⟨⟨sampleState_insertable, by simp [sampleState]⟩, .inr (by simp [sampleState]), ?_⟩, fun s₁ h₁ => ?_⟩
  · intro x hx hkind
    obtain rfl : x = 3 := by simpa [Op.inserted] using hx
    cases hkind
  · have hp := insertAfter_placed (c := 1) (l := []) (a := 2) (r := []) sampleState_insertable.fits
      sampleState_measured.owned rfl h₁
    refine ⟨⟨hp.mem_iff.2 (.inl (by simp [sampleState])), .inr (hp.mem_iff.2 (.inl (by simp [sampleState]))), ?_⟩,
      fun s₂ _ => ⟨⟨trivial, trivial⟩, fun _ _ => trivial⟩⟩
    simp [Op.inserted]

end Egalito.Mutator
