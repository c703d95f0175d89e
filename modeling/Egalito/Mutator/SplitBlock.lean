import Egalito.Mutator.Layout
import Egalito.Mutator.Links
/-!
# Splitting blocks

What `splitBlockBefore` does to a function: the instructions stay in their
order, and the split point becomes the first of its block. `Refined` says what
is left of any number of splits.
-/

namespace Egalito.Mutator

open Lib ChunkMutator

variable {h h' h'' : Heap} {s s' : State} {env : Env} {f b p nb x y d : ChunkId} {A B l r xs : List ChunkId} {v : Address}

/-! ## One split -/

/-- The block `b` of `f` is cut in front of `p`. -/
structure SplitAt (h h' : Heap) (f b p nb : ChunkId) (A B l r : List ChunkId) : Prop where
  blocks : h.children f = A ++ b :: B
  cut : h.children b = l ++ p :: r
  children : h'.children =
    Function.update (Function.update (Function.update h.children b l) nb (p :: r)) f (A ++ b :: nb :: B)
  parent : ∀ y, y ∉ p :: r → y ≠ nb → h'.parent y = h.parent y
  kind : ∀ y, y ≠ nb → h'.kind y = h.kind y
  new : h'.kind nb = .block
  size : ∀ y, y ≠ f → y ≠ b → y ≠ nb → h'.size y = h.size y

theorem append_outside_size (ho : Outside s f b) (hx : s.Insertable b x) (h : append env b x s = some s') :
    ∀ y, y ≠ b → s'.size y = s.size y := by
  obtain ⟨s₁, s₂, h₁, h₂, hs'⟩ := append_inv h
  have hp := placeLast_placed hx.fits
  rw [← h₁] at hp
  have hbx : b ≠ x := by
    rintro rfl
    have := hx.fits
    rw [Kind.fits_self] at this
    cases this
  have hsize₁ : s₁.size = s.size := by rw [h₁, placeLast_toHeap hx.fits, linkLast_toHeap]
  have hparent : s₁.parent b = none := by rw [hp.parent, Function.update_of_ne hbx, ho.parent]
  have hanc : s₁.ancestors b = [b] := by rw [Tree.ancestors, hparent]
  unfold growSizes at h₂
  rw [hanc] at h₂
  have hsize := foldlM_grow (List.nodup_singleton b) (by simpa using hbx.symm) h₂
  intro y hy
  rw [hs', hsize, if_neg (by simpa using hy), hsize₁]

theorem foldlM_appendMoved_size (ho : Outside s f b) (hxs : ∀ x ∈ xs, s.Insertable b x) (hnd : xs.Nodup) (hf : f ∉ xs)
    (h : xs.foldlM (appendMoved env b) s = some s') : ∀ y, y ≠ b → s'.size y = s.size y := by
  induction xs generalizing s with
  | nil =>
    cases h
    exact fun _ _ => rfl
  | cons x xs ih =>
    rw [List.foldlM_cons, Option.bind_eq_bind, Option.bind_eq_some_iff] at h
    obtain ⟨s₁, h₁, h⟩ := h
    obtain ⟨s₂, h₂, hs₁⟩ := appendMoved_inv h₁
    rw [List.mem_cons, not_or] at hf
    have hx := hxs x List.mem_cons_self
    obtain ⟨hmeas, hdet, hne, hpar, hsize⟩ := append_outside ho hx hf.1 h₂
    have hp := append_placed hx.fits h₂
    rw [← hs₁] at hmeas hdet hpar hsize hp
    intro y hy
    rw [ih ⟨hmeas, hdet, hne, hpar, hsize⟩ (hp.insertable_tail hxs hnd) (List.nodup_cons.1 hnd).2 hf.2 h y hy, hs₁,
      append_outside_size ho hx h₂ y hy]

theorem splitBlockBefore_splitAt (hm : s.Measured f) (hblocks : s.children f = A ++ b :: B)
    (hcut : s.children b = l ++ p :: r) (hfresh : s.Fresh nb) (h : splitBlockBefore env f p nb s = some s') :
    SplitAt s.toHeap s'.toHeap f b p nb A B l r := by
  have hb : b ∈ s.children f := by simp [hblocks]
  have hfn : f ≠ nb := by
    rintro rfl
    simp [hfresh.children] at hb
  have hfb : f ≠ b := (hm.ne_function hb).symm
  obtain ⟨s₁, s₂, s₃, hs₁, h₂, h₃, h⟩ := splitBlockBefore_inv hm.owned hfresh hcut h
  obtain ⟨hout, -, hcm⟩ := split_outside hm hb hcut hfresh hs₁ h₂
  obtain ⟨-, -, -, -, hins⟩ := split_cut hm.owned hb hcut hfresh hs₁ h₂
  obtain ⟨hk₃, hc₃, hp₃, hinsert, -⟩ := split_moved hm.owned hb hcut hfresh hs₁ h₂ h₃
  have hnd : (p :: r).Nodup := by
    have hnd := hm.owned.nodup b
    rw [hcut] at hnd
    exact (List.nodup_append.1 hnd).2.1
  have hout₃ := foldlM_appendMoved_outside hout hins hnd hcm h₃
  have hblocks₃ : s₃.children f = A ++ b :: B := by
    rw [hc₃, Function.update_of_ne hfn, Function.update_of_ne hfb, hblocks]
  have hplaced := insertAfter_placed hinsert.fits hout₃.measured.owned hblocks₃ h
  refine ⟨hblocks, hcut, ?_, fun y hy hyn => ?_, fun y hyn => ?_, ?_, fun y hyf hyb hyn => ?_⟩
  · rw [hplaced.children, hc₃]
    simp
  · rw [hplaced.parent, Function.update_of_ne hyn, hp₃, if_neg hy]
    exact Function.update_of_ne hyn ..
  · rw [hplaced.kind, hk₃]
    exact (newBlock_kind nb s).2 y hyn
  · rw [hplaced.kind, hk₃]
    exact (newBlock_kind nb s).1
  · have hm₁ : s₁.Measured f := by
      rw [hs₁]
      exact newBlock_measured hm hfresh hfn
    have hc₁ : s₁.children = s.children := by rw [hs₁, newBlock_children hfresh]
    obtain ⟨t₁, t₂, ht₁, ht₂, hs'⟩ := insertAfter_inv h
    have hsize₁ : t₁.size = s₃.size := by
      have hbkind : (s₃.kind f).fits (s₃.kind b) := hout₃.measured.owned.fits (by simp [hblocks₃])
      rw [ht₁, placeAfter_toHeap hinsert.fits hbkind hblocks₃ (hout₃.measured.owned.notMem hblocks₃).1, linkAfter_toHeap]
    have hp₁ : Placed s₃.toTree t₁.toTree f (A ++ [b]) nb B := by
      rw [ht₁]
      exact placeAfter_placed hinsert.fits hout₃.measured.owned hblocks₃
    have hgrown := hout₃.measured.grown (.inl rfl) hinsert hp₁ hsize₁ ht₂ y
    have hanc : y ∉ s₃.ancestors f := by
      rw [hout₃.measured.ancestors_function]
      simpa using hyf
    rw [hs', hgrown, if_neg hanc, foldlM_appendMoved_size hout hins hnd hcm h₃ y hyn, (foldl_clearPointers (p :: r) s₂).1]
    change s₂.size y = s.size y
    rw [removeLast_size hm₁ (.inr (hc₁ ▸ hb)) hyb hyf h₂, hs₁]
    exact Function.update_of_ne hyn ..

/-! ## Any number of splits -/

/-- The instructions of a function in their order. -/
def Heap.instructions (h : Heap) (f : ChunkId) : List ChunkId := (h.children f).flatMap h.children

/-- An instruction that is the first of its block. -/
def Heap.Starts (h : Heap) (f x : ChunkId) : Prop := ∃ d ∈ h.children f, (h.children d).head? = some x

/-- What splits at `points` leave: every block in pieces, with the instructions that there were. -/
structure Refined (h h' : Heap) (f : ChunkId) (points : List ChunkId) : Prop where
  pieces : ∃ pieces : ChunkId → List ChunkId, h'.children f = (h.children f).flatMap pieces ∧
    ∀ d ∈ h.children f, (pieces d).flatMap h'.children = h.children d
  starts : ∀ x, h'.Starts f x ↔ h.Starts f x ∨ x ∈ points
  size : ∀ x ∈ h.instructions f, h'.size x = h.size x
  blocks : ∀ d ∈ h'.children f, d ≠ f → d ∈ h.children f ∨ h.children d = []
  outside : ∀ d, h.children d ≠ [] → d ≠ f → d ∉ h.children f → h'.children d = h.children d ∧
    h'.kind d = h.kind d ∧ (h.kind d = .block → h'.parent d = h.parent d)
  attached : ∀ y, (∃ d, y ∈ h.children d) → h'.kind y = h.kind y ∧ ∃ d, y ∈ h'.children d
  kind : ∀ y, h'.kind y = .instruction → h.kind y = .instruction

theorem Refined.instructions {points : List ChunkId} (hr : Refined h h' f points) :
    h'.instructions f = h.instructions f := by
  obtain ⟨pieces, hf, hpieces⟩ := hr.pieces
  rw [Heap.instructions, hf, List.flatMap_assoc]
  exact List.flatMap_congr hpieces

theorem refined_refl (h : Heap) (f : ChunkId) : Refined h h f [] :=
  ⟨⟨fun d => [d], by simp, by simp⟩, by simp, fun _ _ => rfl, fun _ hd _ => .inl hd, fun _ _ _ _ => ⟨rfl, rfl, fun _ => rfl⟩, fun _ hy => ⟨rfl, hy⟩,
    fun _ hy => hy⟩

theorem Refined.trans {ps qs : List ChunkId} (h₁ : Refined h h' f ps) (h₂ : Refined h' h'' f qs) :
    Refined h h'' f (ps ++ qs) where
  pieces := by
    obtain ⟨pieces₁, hf₁, hpieces₁⟩ := h₁.pieces
    obtain ⟨pieces₂, hf₂, hpieces₂⟩ := h₂.pieces
    refine ⟨fun d => (pieces₁ d).flatMap pieces₂, by rw [hf₂, hf₁, List.flatMap_assoc], fun d hd => ?_⟩
    rw [List.flatMap_assoc, ← hpieces₁ d hd]
    refine List.flatMap_congr fun e he => hpieces₂ e ?_
    rw [hf₁]
    exact List.mem_flatMap.2 ⟨d, hd, he⟩
  starts x := by rw [h₂.starts, h₁.starts, List.mem_append, or_assoc]
  size x hx := (h₂.size x (h₁.instructions ▸ hx)).trans (h₁.size x hx)
  blocks d hd hdf := by
    rcases h₂.blocks d hd hdf with hd | hd
    · exact h₁.blocks d hd hdf
    · by_contra hnot
      rw [not_or] at hnot
      exact hnot.2 ((h₁.outside d hnot.2 hdf hnot.1).1.symm.trans hd)
  outside d hd hdf hdb := by
    obtain ⟨hc, hk, hp⟩ := h₁.outside d hd hdf hdb
    have hd' : h'.children d ≠ [] := by rwa [hc]
    obtain ⟨hc', hk', hp'⟩ := h₂.outside d hd' hdf fun hmem => (h₁.blocks d hmem hdf).elim hdb hd
    exact ⟨hc'.trans hc, hk'.trans hk, fun hblock => (hp' (hk.trans hblock)).trans (hp hblock)⟩
  attached y hy := by
    obtain ⟨hk, hy'⟩ := h₁.attached y hy
    obtain ⟨hk', hy''⟩ := h₂.attached y hy'
    exact ⟨hk'.trans hk, hy''⟩
  kind y hy := h₁.kind y (h₂.kind y hy)

theorem SplitAt.refined (hs : SplitAt h h' f b p nb A B l r) (ho : h.Owned) (hf : h.kind f = .function)
    (hfresh : h.Fresh nb) : Refined h h' f [p] := by
  have hb : b ∈ h.children f := by simp [hs.blocks]
  have hnb : ∀ c, nb ∉ h.children c := hfresh.detached
  have hne : ∀ {c y}, y ∈ h.children c → y ≠ f := by
    rintro c y hy rfl
    have := ho.fits hy
    rw [hf, Kind.fits_function] at this
    cases this
  obtain ⟨hbA, hbB⟩ := ho.notMem hs.blocks
  have hbn : b ≠ nb := fun he => hnb f (he ▸ hb)
  have hfn : f ≠ nb := by
    rintro rfl
    simp [hfresh.children] at hb
  have hself : h'.children f = A ++ b :: nb :: B := by rw [hs.children, Function.update_self]
  have hold : h'.children b = l := by
    rw [hs.children, Function.update_of_ne (hne hb), Function.update_of_ne hbn, Function.update_self]
  have hnew : h'.children nb = p :: r := by rw [hs.children, Function.update_of_ne hfn.symm, Function.update_self]
  have hsame : ∀ d, d ≠ f → d ≠ nb → d ≠ b → h'.children d = h.children d := fun d hdf hdn hdb => by
    rw [hs.children, Function.update_of_ne hdf, Function.update_of_ne hdn, Function.update_of_ne hdb]
  have hblock : ∀ d ∈ h.children f, d ≠ b → h'.children d = h.children d := fun d hd hdb =>
    hsame d (hne hd) (fun he => hnb f (he ▸ hd)) hdb
  have hmemA : ∀ d ∈ A, d ∈ h.children f := fun d hd => by simp [hs.blocks, hd]
  have hmemB : ∀ d ∈ B, d ∈ h.children f := fun d hd => by simp [hs.blocks, hd]
  have hA : ∀ d ∈ A, h'.children d = h.children d := fun d hd => hblock d (hmemA d hd) fun he => hbA (he ▸ hd)
  have hB : ∀ d ∈ B, h'.children d = h.children d := fun d hd => hblock d (hmemB d hd) fun he => hbB (he ▸ hd)
  have hkind : ∀ y ∈ h.children b, h.kind y = .instruction := fun y hy => (kinds_of_split ho hb hy).2.2
  have hpr : ∀ y ∈ p :: r, y ∈ h.children b := fun y hy => by
    rw [hs.cut]
    exact List.mem_append_right l hy
  refine ⟨?_, fun x => ⟨?_, ?_⟩, fun x hx => ?_, fun d hd hdf => ?_, fun d hd hdf hdb => ?_, fun y ⟨d, hy⟩ => ?_, fun y hy => ?_⟩
  · refine ⟨fun d => if d = b then [b, nb] else [d], ?_, fun d hd => ?_⟩
    · have hwhole : ∀ l : List ChunkId, b ∉ l → l.flatMap (fun d => if d = b then [b, nb] else [d]) = l := fun l hl => by
        rw [List.flatMap_congr (g := fun d => [d]) fun d hd => if_neg (ne_of_mem_of_not_mem hd hl), List.flatMap_singleton']
      rw [hself, hs.blocks, List.flatMap_append, List.flatMap_cons, hwhole A hbA, hwhole B hbB, if_pos rfl,
        List.cons_append, List.singleton_append]
    · dsimp only
      split
      · rename_i he
        rw [List.flatMap_cons, List.flatMap_singleton, hold, hnew, he, hs.cut]
      · rename_i hne
        rw [List.flatMap_singleton, hblock d hd hne]
  · rintro ⟨d, hd, hx⟩
    rw [hself, List.mem_append, List.mem_cons, List.mem_cons] at hd
    rcases hd with hd | rfl | rfl | hd
    · exact .inl ⟨d, hmemA d hd, by rw [← hA d hd, hx]⟩
    · refine .inl ⟨d, hb, ?_⟩
      rw [hold] at hx
      rw [hs.cut, List.head?_append, hx]
      rfl
    · rw [hnew] at hx
      exact .inr (by simpa [eq_comm] using hx)
    · exact .inl ⟨d, hmemB d hd, by rw [← hB d hd, hx]⟩
  · have hstart : h'.Starts f p := ⟨nb, by simp [hself], by simp [hnew]⟩
    rintro (⟨d, hd, hx⟩ | hx)
    · by_cases hdb : d = b
      · subst hdb
        rw [hs.cut] at hx
        cases l with
        | nil =>
          obtain rfl : p = x := by simpa using hx
          exact hstart
        | cons z l => exact ⟨d, by simp [hself], by rw [hold]; simpa using hx⟩
      · refine ⟨d, ?_, by rw [hblock d hd hdb, hx]⟩
        rw [hs.blocks, List.mem_append, List.mem_cons] at hd
        rw [hself, List.mem_append, List.mem_cons, List.mem_cons]
        tauto
    · rw [List.mem_singleton.1 hx]
      exact hstart
  · obtain ⟨d, hd, hx⟩ := List.mem_flatMap.1 hx
    have hxb : x ≠ b := by
      rintro rfl
      have hk₁ := (kinds_of_split ho hd hx).2.2
      have hk₂ := (kinds_of_split ho hb (hpr p List.mem_cons_self)).2.1
      rw [hk₁] at hk₂
      cases hk₂
    exact hs.size x (hne hx) hxb fun he => hnb d (he ▸ hx)
  · rw [hself, List.mem_append, List.mem_cons, List.mem_cons] at hd
    rcases hd with hd | rfl | rfl | hd
    · exact .inl (hmemA d hd)
    · exact .inl hb
    · exact .inr hfresh.children
    · exact .inl (hmemB d hd)
  · have hdn : d ≠ nb := fun he => hd (he ▸ hfresh.children)
    refine ⟨hsame d hdf hdn fun he => hdb (he ▸ hb), hs.kind d hdn, fun hk => hs.parent d (fun hmem => ?_) hdn⟩
    rw [hkind d (hpr d hmem)] at hk
    cases hk
  · refine ⟨hs.kind y fun he => hnb d (he ▸ hy), ?_⟩
    by_cases hdf : d = f
    · subst hdf
      refine ⟨d, ?_⟩
      rw [hs.blocks, List.mem_append, List.mem_cons] at hy
      rw [hself, List.mem_append, List.mem_cons, List.mem_cons]
      tauto
    · by_cases hdb : d = b
      · subst hdb
        rw [hs.cut, List.mem_append] at hy
        exact hy.elim (fun hy => ⟨d, hold ▸ hy⟩) fun hy => ⟨nb, hnew ▸ hy⟩
      · have hdn : d ≠ nb := by
          rintro rfl
          simp [hfresh.children] at hy
        exact ⟨d, by rwa [hsame d hdf hdn hdb]⟩
  · by_cases hyn : y = nb
    · rw [hyn, hs.new] at hy
      cases hy
    · rwa [← hs.kind y hyn]

/-- Another id that is not in use stays so. -/
theorem SplitAt.fresh {n : ChunkId} (hs : SplitAt h h' f b p nb A B l r) (hn : h.Fresh n) (hne : n ≠ nb) : h'.Fresh n := by
  have hnf : n ≠ f := by
    rintro rfl
    have := hn.children
    simp [hs.blocks] at this
  have hnb : n ≠ b := by
    rintro rfl
    have := hn.children
    simp [hs.cut] at this
  refine ⟨fun c hc => ?_, ?_⟩
  · have hf := hn.detached f
    have hb := hn.detached b
    rw [hs.blocks] at hf
    rw [hs.cut] at hb
    rw [hs.children] at hc
    by_cases hcf : c = f
    · subst hcf
      simp only [Function.update_self, List.mem_append, List.mem_cons] at hc hf
      tauto
    · rw [Function.update_of_ne hcf] at hc
      by_cases hcn : c = nb
      · subst hcn
        rw [Function.update_self] at hc
        exact hb (List.mem_append_right l hc)
      · rw [Function.update_of_ne hcn] at hc
        by_cases hcb : c = b
        · subst hcb
          rw [Function.update_self] at hc
          exact hb (List.mem_append_left _ hc)
        · rw [Function.update_of_ne hcb] at hc
          exact hn.detached c hc
  · rw [hs.children, Function.update_of_ne hnf, Function.update_of_ne hne, Function.update_of_ne hnb, hn.children]

/-- The loop over the split points; the ids of the blocks that it allocates are given. -/
def splitAll (env : Env) (f : ChunkId) (newBlocks : Nat → ChunkId) : List ChunkId → Nat → State → Option State
  | [], _, s => some s
  | p :: points, i, s => do splitAll env f newBlocks points (i + 1) (← splitBlockBefore env f p (newBlocks i) s)

/-- The allocator gives ids that are not in use. -/
structure Allocates (h : Heap) (newBlocks : Nat → ChunkId) (i : Nat) : Prop where
  injective : Function.Injective newBlocks
  fresh : ∀ j, i ≤ j → h.Fresh (newBlocks j)

theorem splitAll_refined (hmode : env.mode = .offset) (hfuel : 3 ≤ env.fuel) {newBlocks : Nat → ChunkId} {i : Nat}
    (hp : s.Positioned f v) (hl : s.Linked) (hxs : ∀ x ∈ xs, x ∈ s.instructions f) (hnew : Allocates s.toHeap newBlocks i) :
    ∃ s', splitAll env f newBlocks xs i s = some s' ∧ s'.Positioned f v ∧ s'.Linked ∧ Refined s.toHeap s'.toHeap f xs := by
  induction xs generalizing s i with
  | nil => exact ⟨s, rfl, hp, hl, refined_refl _ _⟩
  | cons x xs ih =>
    have hm := hp.measured
    obtain ⟨b, hb, hx⟩ := List.mem_flatMap.1 (hxs x List.mem_cons_self)
    obtain ⟨A, B, hblocks⟩ := List.append_of_mem hb
    obtain ⟨l, r, hcut⟩ := List.append_of_mem hx
    have hfresh := hnew.fresh i le_rfl
    obtain ⟨s₁, h₁, hp₁⟩ := splitBlockBefore_positioned hmode hfuel hp hb hx hfresh (hl.last f b)
    have hl₁ := splitBlockBefore_linked hl hb hx hfresh h₁
    have hsplit := splitBlockBefore_splitAt hm hblocks hcut hfresh h₁
    have hrefined := hsplit.refined hm.owned hm.kind hfresh
    have hnew₁ : Allocates s₁.toHeap newBlocks (i + 1) :=
      ⟨hnew.injective, fun j hj => hsplit.fresh (hnew.fresh j (by omega)) fun he => by
        have := hnew.injective he
        omega⟩
    have hxs₁ : ∀ y ∈ xs, y ∈ s₁.instructions f := fun y hy => by
      rw [hrefined.instructions]
      exact hxs y (List.mem_cons_of_mem x hy)
    obtain ⟨s', hrun, hp', hl', hrefined'⟩ := ih hp₁ hl₁ hxs₁ hnew₁
    exact ⟨s', by rw [splitAll, h₁]; exact hrun, hp', hl', hrefined.trans hrefined'⟩

end Egalito.Mutator
