import Egalito.Mutator.Sizes
/-!
# Positions in the default mode

With `MODE_OFFSET` the positions that an operation makes are plain offsets, and
no generation is counted. This module shows that the operations on a function
with an absolute position, whose blocks and instructions have offsets, run to
their end and keep it so; `Layout` then computes the addresses.
-/

namespace Egalito.Mutator

open Lib ChunkMutator PosM

variable {h : Heap} {s s' : State} {env : Env} {ps ps' : Positions} {f b c x y a : ChunkId}
  {l r m : List ChunkId} {n : Nat}

/-! ## Running position computations -/

section Run

variable {α β : Type} {m : PosM α} {k : α → PosM β} {v : α}

theorem run_bind (hm : m ps = some (v, ps')) : (m >>= k) ps = k v ps' := by
  change (m ps >>= fun r => k r.1 r.2) = _
  rw [hm]
  rfl

theorem run_position {p : Position} (hp : ps c = some p) : position c ps = some (p, ps) := by
  unfold position
  rw [hp]
  rfl

theorem run_setPosition (c : ChunkId) (p : Option Position) (ps : Positions) :
    PosM.setPosition c p ps = some ((), Function.update ps c p) := rfl

theorem updatePos_eq {m : PosM Unit} (hm : m s.pos = some ((), ps')) :
    s.updatePos m = some { s with pos := ps' } := by
  unfold State.updatePos
  rw [hm]
  rfl

end Run

/-! ## Addresses -/

/-- With enough fuel the address of `c` is `v`, and reading it changes no position. -/
def HasAddress (h : Heap) (ps : Positions) (c : ChunkId) (depth : Nat) (v : Address) : Prop :=
  ∀ n, depth ≤ n → getAddress h n c ps = some (v, ps)

def Position.absoluteAddress : Position → Option Address
  | .absolute v => some v
  | .trackedAbsolute v _ => some v
  | _ => none

theorem hasAddress_absolute {p : Position} {v : Address} (hp : ps c = some p) (hv : p.absoluteAddress = some v) :
    HasAddress h ps c 1 v := by
  intro n hn
  obtain ⟨n, rfl⟩ := Nat.exists_eq_add_of_le' hn
  rw [getAddress, run_bind (run_position hp)]
  cases p <;> simp_all [Position.absoluteAddress] <;> rfl

theorem hasAddress_offset_root {o : Address} (hp : ps c = some (.offset o)) (hparent : h.parent c = none) :
    HasAddress h ps c 1 0 := by
  intro n hn
  obtain ⟨n, rfl⟩ := Nat.exists_eq_add_of_le' hn
  rw [getAddress, run_bind (run_position hp)]
  simp only [offsetGet, hparent]
  rfl

theorem hasAddress_offset {o v : Address} {d : Nat} (hp : ps c = some (.offset o)) (hparent : h.parent c = some b)
    (hb : HasAddress h ps b d v) : HasAddress h ps c (d + 1) (v + o) := by
  intro n hn
  obtain ⟨n, rfl⟩ := Nat.exists_eq_add_of_le' (Nat.le_of_add_left_le hn)
  rw [getAddress, run_bind (run_position hp)]
  simp only [offsetGet, hparent]
  rw [run_bind (hb n (by omega))]
  rfl

/-! ## Making positions -/

/-- The list cursor finds what is before a child. -/
theorem cursorPrev_eq (hsplit : h.children c = l ++ x :: r) (hx : x ∉ l) :
    cursorPrev h c x ps = some (l.getLast?, ps) := by
  unfold cursorPrev
  rw [hsplit, idxOf?_middle hx]
  cases l using List.reverseRecOn with
  | nil => rfl
  | append_singleton l a =>
    have hget : (l ++ [a] ++ x :: r)[l.length]? = some a := by simp
    rw [List.length_append, List.length_singleton]
    simp only [hget, List.getLast?_concat]
    rfl

section Make

variable (hmode : env.mode = .offset)
include hmode

theorem makePosition_offset (prev : Option ChunkId) (x : ChunkId) (o : Address) :
    makePosition env h prev x o ps = some (.offset o, ps) := by
  unfold makePosition
  cases prev <;> simp [hmode, Mode.needsGenerationTracking] <;> rfl

theorem makePositionFor_offset (ps : Positions) (hsplit : h.children c = l ++ x :: r) (hx : x ∉ l)
    (hl : ∀ q ∈ l.getLast?, (∃ v, HasAddress h ps q env.fuel v) ∧ ∃ v, HasAddress h ps c env.fuel v) :
    ∃ o, makePositionFor env h c x ps = some ((), Function.update ps x (some (.offset o))) := by
  unfold makePositionFor
  rw [run_bind (cursorPrev_eq hsplit hx)]
  cases hlast : l.getLast? with
  | none =>
    refine ⟨0, ?_⟩
    simp only
    rw [run_bind (makePosition_offset hmode none x 0)]
    rfl
  | some q =>
    obtain ⟨⟨w, hw⟩, v, hv⟩ := hl q hlast
    refine ⟨w - v, ?_⟩
    simp only
    rw [run_bind (hw _ le_rfl), run_bind (hv _ le_rfl), run_bind (makePosition_offset hmode (some q) x (w - v))]
    rfl

theorem refreshNext_offset (ho : s.Owned) (hf : s.kind f = .function) :
    ∃ s', refreshNext env x s = some s' ∧ s'.toHeap = s.toHeap ∧ s'.pos f = s.pos f ∧
      ∀ y, s'.pos y = s.pos y ∨ ∃ o, s'.pos y = some (.offset o) := by
  unfold refreshNext
  cases s.nextSibling x with
  | none => exact ⟨s, rfl, rfl, rfl, fun y => .inl rfl⟩
  | some next =>
    simp only
    cases hnext : s.children next with
    | nil => exact ⟨s, rfl, rfl, rfl, fun y => .inl rfl⟩
    | cons z zs =>
      have hfz : f ≠ z := by
        rintro rfl
        have := ho.fits (c := next) (x := f) (by simp [hnext])
        rw [hf, Kind.fits_function] at this
        cases this
      obtain ⟨o, ho⟩ := makePositionFor_offset (h := (s.setPosition z none).toHeap) (l := []) hmode
        (s.setPosition z none).pos hnext (by simp) (by simp)
      refine ⟨_, updatePos_eq ho, rfl, ?_, fun y => ?_⟩
      · simp [State.setPosition, hfz]
      · by_cases hyz : y = z
        · exact .inr ⟨o, by rw [hyz]; exact Function.update_self ..⟩
        · exact .inl (by simp [State.setPosition, hyz])

theorem updateGenerationCounts_offset (x : ChunkId) : updateGenerationCounts env h x ps = some ((), ps) := by
  unfold updateGenerationCounts
  simp [hmode, Mode.needsGenerationTracking]
  rfl

end Make

/-! ## Adjusting sizes without an overflow -/

theorem foldlM_grow_some {cs : List ChunkId} (hnd : cs.Nodup) (hx : x ∉ cs)
    (hroom : ∀ c ∈ cs, s.size c + s.size x < 2 ^ 63) :
    ∃ s', cs.foldlM (fun s c => s.addToSize c (s.size x)) s = some s' := by
  induction cs generalizing s with
  | nil => exact ⟨s, rfl⟩
  | cons c cs ih =>
    rw [List.mem_cons, not_or] at hx
    rw [List.nodup_cons] at hnd
    have hc := hroom c List.mem_cons_self
    have hadd : s.addToSize c (s.size x) = some (s.setSize c ((s.size c : Int) + s.size x).toNat) := by
      unfold State.addToSize
      simp only
      rw [if_pos ⟨by omega, by omega⟩]
    obtain ⟨s', hs'⟩ := ih (s := s.setSize c ((s.size c : Int) + s.size x).toNat) hnd.2 hx.2 (by
      intro d hd
      have hdc : d ≠ c := fun he => hnd.1 (he ▸ hd)
      simp only [State.setSize, Function.update_of_ne hdc, Function.update_of_ne hx.1]
      exact hroom d (List.mem_cons_of_mem c hd))
    exact ⟨s', by rw [List.foldlM_cons, hadd]; exact hs'⟩

theorem foldlM_shrink_some {cs : List ChunkId} {k : State → Nat} (hnd : cs.Nodup)
    (hk : ∀ s c n, c ∈ cs → k (s.setSize c n) = k s) (hroom : ∀ c ∈ cs, k s ≤ s.size c ∧ s.size c < 2 ^ 63) :
    ∃ s', cs.foldlM (fun s c => if s.size c ≠ 0 then s.addToSize c (-k s) else some s) s = some s' := by
  induction cs generalizing s with
  | nil => exact ⟨s, rfl⟩
  | cons c cs ih =>
    rw [List.nodup_cons] at hnd
    obtain ⟨hle, hlt⟩ := hroom c List.mem_cons_self
    by_cases hzero : s.size c ≠ 0
    · have hadd : s.addToSize c (-k s) = some (s.setSize c ((s.size c : Int) + -k s).toNat) := by
        unfold State.addToSize
        simp only
        rw [if_pos ⟨by omega, by omega⟩]
      obtain ⟨s', hs'⟩ := ih (s := s.setSize c ((s.size c : Int) + -k s).toNat) hnd.2
        (fun s c n hc => hk s c n (List.mem_cons_of_mem _ hc)) (by
          intro d hd
          have hdc : d ≠ c := fun he => hnd.1 (he ▸ hd)
          rw [hk s c _ List.mem_cons_self]
          simp only [State.setSize, Function.update_of_ne hdc]
          exact hroom d (List.mem_cons_of_mem c hd))
      exact ⟨s', by rw [List.foldlM_cons, if_pos hzero, hadd]; exact hs'⟩
    · obtain ⟨s', hs'⟩ := ih hnd.2 (fun s c n hc => hk s c n (List.mem_cons_of_mem _ hc))
        (fun d hd => hroom d (List.mem_cons_of_mem c hd))
      exact ⟨s', by rw [List.foldlM_cons, if_neg hzero]; exact hs'⟩

/-! ## The invariant -/

/-- A function with an absolute position whose blocks and instructions have offsets. The
last `nextSibling` of a list may be stale. -/
structure State.Positioned (s : State) (f : ChunkId) (v : Address) : Prop where
  measured : s.Measured f
  threaded : s.Threaded
  small : s.size f < 2 ^ 63
  function : ∃ p, s.pos f = some p ∧ p.absoluteAddress = some v
  child : ∀ c, (c = f ∨ c ∈ s.children f) → ∀ y ∈ s.children c, ∃ o, s.pos y = some (.offset o)

/-- A chunk to insert has no position yet or an offset, and so do its children. -/
def State.Ready (s : State) (x : ChunkId) : Prop :=
  (∀ p ∈ s.pos x, ∃ o, p = .offset o) ∧ ∀ y ∈ s.children x, ∃ o, s.pos y = some (.offset o)

/-- What `setAfterThis` does not change. -/
def Unlinked (p : Option Position) : Prop := ∀ z, p.map (·.setAfterThis z) = p

theorem unlinked_offset {p : Option Position} (hp : ∀ q ∈ p, ∃ o, q = .offset o) : Unlinked p := by
  intro z
  cases p with
  | none => rfl
  | some q =>
    obtain ⟨o, rfl⟩ := hp q rfl
    rfl

theorem setPreviousSibling_pos (p : Option ChunkId) (hy : Unlinked (s.pos y)) :
    (ChunkMutator.setPreviousSibling c p s).pos y = s.pos y := by
  cases p with
  | none => rfl
  | some p =>
    change Function.update s.pos c ((s.pos c).map _) y = s.pos y
    by_cases hyc : y = c
    · subst hyc
      rw [Function.update_self, hy p]
    · rw [Function.update_of_ne hyc]

theorem setNextSibling_pos (n : Option ChunkId) (hy : Unlinked (s.pos y)) :
    (ChunkMutator.setNextSibling c n s).pos y = s.pos y := by
  cases n with
  | none => rfl
  | some n =>
    change Function.update s.pos n ((s.pos n).map _) y = s.pos y
    by_cases hyn : y = n
    · subst hyn
      rw [Function.update_self, hy c]
    · rw [Function.update_of_ne hyn]

section Links

variable (hy : Unlinked (s.pos y))
include hy

theorem linkLast_pos : (linkLast c x s).pos y = s.pos y := by
  unfold linkLast
  cases (s.children c).getLast? with
  | none => rfl
  | some p =>
    have h₁ := setPreviousSibling_pos (c := x) (some p) hy
    rw [setNextSibling_pos _ (h₁ ▸ hy), h₁]

theorem linkAfter_pos (pt : Option ChunkId) : (linkAfter pt x s).pos y = s.pos y := by
  have h₁ := setPreviousSibling_pos (c := x) pt hy
  unfold linkAfter
  cases pt with
  | none => exact h₁
  | some a =>
    simp only
    split
    · rename_i n _
      have h₂ := setPreviousSibling_pos (c := n) (some x) (h₁ ▸ hy)
      have h₃ := setNextSibling_pos (c := x)
        ((ChunkMutator.setPreviousSibling x (some a) s).nextSibling a) (h₂.trans h₁ ▸ hy)
      rw [setNextSibling_pos _ (h₃.trans (h₂.trans h₁) ▸ hy), h₃, h₂, h₁]
    · have h₃ := setNextSibling_pos (c := x)
        ((ChunkMutator.setPreviousSibling x (some a) s).nextSibling a) (h₁ ▸ hy)
      rw [setNextSibling_pos _ (h₃.trans h₁ ▸ hy), h₃, h₁]

theorem linkBefore_pos : (linkBefore a x s).pos y = s.pos y := by
  have hrest : ∀ s₁ : State, s₁.pos y = s.pos y → (ChunkMutator.setPreviousSibling a (some x)
      (ChunkMutator.setPreviousSibling x (s.previousSibling a)
        (ChunkMutator.setNextSibling x (some a) s₁))).pos y = s.pos y := by
    intro s₁ h₁
    have h₂ := setNextSibling_pos (c := x) (some a) (h₁ ▸ hy)
    have h₃ := setPreviousSibling_pos (c := x) (s.previousSibling a) (h₂.trans h₁ ▸ hy)
    rw [setPreviousSibling_pos _ (h₃.trans (h₂.trans h₁) ▸ hy), h₃, h₂, h₁]
  unfold linkBefore
  apply hrest
  split
  · exact setNextSibling_pos _ hy
  · rfl

theorem unlink_pos : (unlink x s).pos y = s.pos y := by
  unfold unlink
  dsimp only
  cases s.previousSibling x with
  | none =>
    cases s.nextSibling x with
    | none => rfl
    | some next => exact setPreviousSibling_pos _ hy
  | some prev =>
    have h₁ := setNextSibling_pos (c := prev) (s.nextSibling x) hy
    cases hnext : s.nextSibling x with
    | none => rwa [hnext] at h₁
    | some next =>
      rw [hnext] at h₁
      exact (setPreviousSibling_pos _ (h₁ ▸ hy)).trans h₁

theorem placeLast_pos : (placeLast c x s).pos y = s.pos y := by
  have h₁ := linkLast_pos (c := c) (x := x) hy
  unfold placeLast State.genericAdd State.setChildren State.setParent
  dsimp only
  split_ifs <;> exact h₁

theorem placeAfter_pos (pt : Option ChunkId) : (placeAfter c pt x s).pos y = s.pos y := by
  have h₁ := linkAfter_pos (x := x) hy pt
  unfold placeAfter State.genericInsertAt State.setChildren State.setParent
  dsimp only
  split_ifs <;> exact h₁

theorem placeBefore_pos (h : placeBefore c a x s = some s') : s'.pos y = s.pos y := by
  have h₁ := linkBefore_pos (a := a) (x := x) hy
  unfold placeBefore at h
  simp only [Option.bind_eq_bind, Option.bind_eq_some_iff, Option.pure_def, Option.some.injEq] at h
  obtain ⟨i, -, rfl⟩ := h
  unfold State.genericInsertAt State.setChildren State.setParent
  split_ifs <;> exact h₁

end Links

/-! ## Insertions -/

namespace State.Positioned

variable {v : Address} (hp : s.Positioned f v)
include hp

theorem unlinked_child (hc : c = f ∨ c ∈ s.children f) (hy : y ∈ s.children c) : Unlinked (s.pos y) := by
  obtain ⟨o, ho⟩ := hp.child c hc y hy
  rw [ho]
  exact fun _ => rfl

theorem unlinked_function : Unlinked (s.pos f) := by
  obtain ⟨p, hpf, hv⟩ := hp.function
  rw [hpf]
  intro z
  cases p <;> simp_all [Position.absoluteAddress, Position.setAfterThis]

/-- The addresses of the function, of a block and of an instruction in any state that agrees on
their parents and positions. -/
theorem hasAddress (hfuel : 3 ≤ env.fuel) (hc : c = f ∨ c ∈ s.children f) {s₁ : State}
    (hposf : s₁.pos f = s.pos f) (hpos : ∀ d y, (d = f ∨ d ∈ s.children f) → y ∈ s.children d → s₁.pos y = s.pos y)
    (hparent : ∀ d y, y ∈ s.children d → s₁.parent y = some d) :
    (∃ w, HasAddress s₁.toHeap s₁.pos c env.fuel w) ∧
      ∀ y ∈ s.children c, ∃ w, HasAddress s₁.toHeap s₁.pos y env.fuel w := by
  have hf : HasAddress s₁.toHeap s₁.pos f 1 v := by
    obtain ⟨p, hpf, hv⟩ := hp.function
    exact hasAddress_absolute (hposf.trans hpf) hv
  have hchild : ∀ {c y d w}, (c = f ∨ c ∈ s.children f) → y ∈ s.children c → HasAddress s₁.toHeap s₁.pos c d w →
      ∃ w, HasAddress s₁.toHeap s₁.pos y (d + 1) w := by
    intro c y d w hc hy hw
    obtain ⟨o, ho⟩ := hp.child c hc y hy
    have hpy : s₁.pos y = some (.offset o) := (hpos c y hc hy).trans ho
    exact ⟨w + o, hasAddress_offset hpy (hparent c y hy) hw⟩
  have hlift : ∀ {y d w}, d ≤ 3 → HasAddress s₁.toHeap s₁.pos y d w →
      HasAddress s₁.toHeap s₁.pos y env.fuel w := fun hd hw n hn => hw n (by omega)
  rcases hc with rfl | hc
  · refine ⟨⟨v, hlift (by omega) hf⟩, fun y hy => ?_⟩
    obtain ⟨w, hw⟩ := hchild (.inl rfl) hy hf
    exact ⟨w, hlift (by omega) hw⟩
  · obtain ⟨w, hw⟩ := hchild (.inl rfl) hc hf
    refine ⟨⟨w, hlift (by omega) hw⟩, fun y hy => ?_⟩
    obtain ⟨u, hu⟩ := hchild (.inr hc) hy hw
    exact ⟨u, hlift (by omega) hu⟩

section Settle

variable {s₁ : State} (hmode : env.mode = .offset) (hc : c = f ∨ c ∈ s.children f) (hx : s.Insertable c x)
  (hplaced : Placed s.toTree s₁.toTree c l x r)
include hmode hc hx hplaced

/-- Once its pointers are set, the new chunk has an offset or gets one. -/
theorem ensure (hfuel : 3 ≤ env.fuel) (hready : ∀ p ∈ s.pos x, ∃ o, p = .offset o)
    (hpos : ∀ y, Unlinked (s.pos y) → s₁.pos y = s.pos y) :
    ∃ o, ensurePosition env c x s₁ = some (s₁.setPosition x (some (.offset o))) := by
  have hxpos := hpos x (unlinked_offset hready)
  unfold ensurePosition
  cases hpx : s.pos x with
  | some p =>
    obtain ⟨o, rfl⟩ := hready p hpx
    rw [hpx] at hxpos
    exact ⟨o, by rw [State.setPosition, ← hxpos, Function.update_eq_self]; simp [hxpos]⟩
  | none =>
    have hxl : x ∉ l := fun hxl => hx.detached c (by rw [hplaced.split]; exact List.mem_append_left r hxl)
    have hsplit : s₁.children c = l ++ x :: r := by rw [hplaced.children, Function.update_self]
    have hparent : ∀ d y, y ∈ s.children d → s₁.parent y = some d := by
      intro d y hy
      rw [hplaced.parent, Function.update_of_ne (fun he : y = x => hx.detached d (he ▸ hy))]
      exact hp.measured.owned.parent hy
    obtain ⟨hcaddr, hchild⟩ := hp.hasAddress hfuel hc (hpos f hp.unlinked_function)
      (fun d y hd hy => hpos y (hp.unlinked_child hd hy)) hparent
    obtain ⟨o, ho⟩ := makePositionFor_offset (h := s₁.toHeap) hmode s₁.pos hsplit hxl (by
      intro q hq
      have hqc : q ∈ s.children c := by
        rw [hplaced.split]
        exact List.mem_append_left r (List.mem_of_mem_getLast? hq)
      exact ⟨hchild q hqc, hcaddr⟩)
    refine ⟨o, ?_⟩
    rw [hpx] at hxpos
    simp only [hxpos, Option.isSome_none, Bool.false_eq_true, if_false]
    exact updatePos_eq ho

theorem grow (hroom : s.size f + s.size x < 2 ^ 63) (hsize : s₁.size = s.size) :
    ∃ s', updateSizesAndAuthorities env c x s₁ = some s' ∧ s'.pos = s₁.pos ∧ s'.toTree = s₁.toTree ∧
      ∀ y, s'.size y = if y ∈ s.ancestors c then s.size y + s.size x else s.size y := by
  have hm := hp.measured
  obtain ⟨hanc, hxanc⟩ := hm.ancestors_placed hc hx hplaced
  have hgrow : ∃ s₂, growSizes c x s₁ = some s₂ := by
    unfold growSizes
    rw [hanc]
    refine foldlM_grow_some (hm.ancestors_nodup hc) hxanc fun d hd => ?_
    have : s.size d ≤ s.size f := hm.size_le_function hc hd
    rw [hsize]
    omega
  obtain ⟨s₂, h₂⟩ := hgrow
  obtain ⟨htree, hpos⟩ := growSizes_frame h₂
  refine ⟨s₂, ?_, hpos, htree, hm.grown hc hx hplaced hsize h₂⟩
  unfold updateSizesAndAuthorities
  rw [h₂]
  exact updatePos_eq (updateGenerationCounts_offset hmode x)

theorem settle (hfuel : 3 ≤ env.fuel) (hready : ∀ p ∈ s.pos x, ∃ o, p = .offset o)
    (hroom : s.size f + s.size x < 2 ^ 63) (hsize : s₁.size = s.size)
    (hpos : ∀ y, Unlinked (s.pos y) → s₁.pos y = s.pos y) :
    ∃ o s', (ensurePosition env c x s₁ = some (s₁.setPosition x (some (.offset o))) ∧
      updateSizesAndAuthorities env c x (s₁.setPosition x (some (.offset o))) = some s') ∧
      s'.toTree = s₁.toTree ∧ s'.pos = Function.update s₁.pos x (some (.offset o)) ∧
      ∀ y, s'.size y = if y ∈ s.ancestors c then s.size y + s.size x else s.size y := by
  obtain ⟨o, h₁⟩ := hp.ensure hmode hc hx hplaced hfuel hready hpos
  obtain ⟨s', h₂, hpos', htree, hsize'⟩ := hp.grow hmode hc hx
    (show Placed s.toTree (s₁.setPosition x (some (.offset o))).toTree c l x r from hplaced) hroom hsize
  exact ⟨o, s', ⟨h₁, h₂⟩, htree, hpos', hsize'⟩

end Settle

end State.Positioned

/-- What an insertion of `x` into `c` does to the function `f`, and leaves as it was. -/
structure Inserts (s s' : State) (f c x : ChunkId) : Prop where
  placed : ∃ l r, Placed s.toTree s'.toTree c l x r
  function : s'.size f = s.size f + s.size x
  size : ∀ y, s.Detached y → y ≠ f → y ≠ x → s'.size y = s.size y
  pos_function : s'.pos f = s.pos f
  pos_new : ∃ o, s'.pos x = some (.offset o)
  pos : ∀ y, Unlinked (s.pos y) → s'.pos y = s.pos y ∨ ∃ o, s'.pos y = some (.offset o)

theorem State.Positioned.inserted {v : Address} (hp : s.Positioned f v) (hready : s.Ready x)
    (hroom : s.size f + s.size x < 2 ^ 63) (hi : Inserts s s' f c x) (hm : s'.Measured f) (ht : s'.Threaded) :
    s'.Positioned f v := by
  obtain ⟨l, r, hplaced⟩ := hi.placed
  refine ⟨hm, ht, by rw [hi.function]; exact hroom, ?_, ?_⟩
  · obtain ⟨p, hpf, hv⟩ := hp.function
    exact ⟨p, hi.pos_function.trans hpf, hv⟩
  · intro d hd y hy
    have hkeep : (∃ o, s.pos y = some (.offset o)) → ∃ o, s'.pos y = some (.offset o) := by
      rintro ⟨o, ho⟩
      rcases hi.pos y (by rw [ho]; exact fun _ => rfl) with h | h
      · exact ⟨o, h.trans ho⟩
      · exact h
    rcases hplaced.mem_iff.1 hy with hy | ⟨-, rfl⟩
    · refine hkeep ?_
      rcases hd with rfl | hd
      · exact hp.child d (.inl rfl) y hy
      · rcases hplaced.mem_iff.1 hd with hd | ⟨-, rfl⟩
        · exact hp.child d (.inr hd) y hy
        · exact hready.2 y hy
    · exact hi.pos_new

/-- The frame of an insertion, from the steps it is made of. -/
theorem inserts_of_settle {s₁ s₂ : State} {o v : Address} (hp : s.Positioned f v) (hc : c = f ∨ c ∈ s.children f)
    (hx : s.Insertable c x) (hplaced : Placed s.toTree s₁.toTree c l x r)
    (hpos : ∀ y, Unlinked (s.pos y) → s₁.pos y = s.pos y) (htree : s₂.toTree = s₁.toTree)
    (hpos₂ : s₂.pos = Function.update s₁.pos x (some (.offset o)))
    (hsize : ∀ y, s₂.size y = if y ∈ s.ancestors c then s.size y + s.size x else s.size y) :
    Inserts s s₂ f c x := by
  have hm := hp.measured
  refine ⟨⟨l, r, htree ▸ hplaced⟩, ?_, ?_, ?_, ⟨o, by rw [hpos₂, Function.update_self]⟩, ?_⟩
  · rw [hsize, if_pos (hm.function_mem_ancestors hc)]
  · intro y hy hyf hyx
    rw [hsize, if_neg]
    intro hmem
    rcases hm.mem_ancestors hc hmem with rfl | rfl
    · rcases hc with rfl | hc
      · exact hyf rfl
      · exact hy f hc
    · exact hyf rfl
  · rw [hpos₂, Function.update_of_ne (hm.insertable_ne hx).1, hpos f hp.unlinked_function]
  · intro y hy
    rw [hpos₂]
    by_cases hyx : y = x
    · exact .inr ⟨o, by rw [hyx, Function.update_self]⟩
    · exact .inl (by rw [Function.update_of_ne hyx, hpos y hy])

section Insert

variable {v : Address} (hmode : env.mode = .offset) (hfuel : 3 ≤ env.fuel) (hp : s.Positioned f v)
  (hc : c = f ∨ c ∈ s.children f) (hx : s.Insertable c x) (hready : s.Ready x)
  (hblock : c = f → s.size x = s.sum (s.children x)) (hroom : s.size f + s.size x < 2 ^ 63)
include hmode hfuel hp hc hx hready hblock hroom

theorem append_positioned : ∃ s', append env c x s = some s' ∧ s'.Positioned f v ∧ Inserts s s' f c x := by
  have hm := hp.measured
  have hplaced := placeLast_placed hx.fits
  have hpos : ∀ y, Unlinked (s.pos y) → (placeLast c x s).pos y = s.pos y := fun y hy => placeLast_pos hy
  have hsize : (placeLast c x s).size = s.size := by rw [placeLast_toHeap hx.fits, linkLast_toHeap]
  obtain ⟨o, s', ⟨h₁, h₂⟩, htree, hpos', hsize'⟩ := hp.settle hmode hc hx hplaced hfuel hready.1 hroom hsize hpos
  have h : append env c x s = some s' := by
    simp only [append, h₁, Option.bind_eq_bind, Option.bind_some]
    exact h₂
  have hi := inserts_of_settle hp hc hx hplaced hpos htree hpos' hsize'
  refine ⟨s', h, hp.inserted hready hroom hi (append_measured hm hc hx hblock h) ?_, hi⟩
  rw [htree]
  exact (placeLast_spliced hx.fits hx.detached).threaded hm.owned hx.detached hp.threaded (by simp)

theorem insertBefore_positioned (ha : a ∈ s.children c) :
    ∃ s', insertBefore env c (some a) x s = some s' ∧ s'.Positioned f v ∧ Inserts s s' f c x := by
  have hm := hp.measured
  obtain ⟨l, r, hsplit⟩ := List.append_of_mem ha
  obtain ⟨s₁, h₁, hplaced⟩ := placeBefore_placed hx.fits hm.owned hsplit
  have hspliced := placeBefore_spliced hx.fits hx.detached hm.owned hsplit (hp.threaded.prev_eq hsplit) h₁
  have hpos : ∀ y, Unlinked (s.pos y) → s₁.pos y = s.pos y := fun y hy => placeBefore_pos hy h₁
  have hsize : s₁.size = s.size := by
    obtain ⟨s₂, h₂, hheap⟩ := placeBefore_toHeap hx.fits (hm.owned.fits ha) hsplit (hm.owned.notMem hsplit).1
    cases h₂.symm.trans h₁
    rw [hheap, linkBefore_toHeap]
  obtain ⟨o, s', ⟨h₂, h₃⟩, htree, hpos', hsize'⟩ := hp.settle hmode hc hx hplaced hfuel hready.1 hroom hsize hpos
  have hfirst : ∀ s, specialCaseFirst env a x s = some s := by
    intro s
    unfold specialCaseFirst
    simp [hmode, Mode.needsSpecialCaseFirst]
  have h : insertBefore env c (some a) x s = some s' := by
    simp only [insertBefore, h₁, h₂, hfirst, Option.bind_eq_bind, Option.bind_some]
    exact h₃
  have hi := inserts_of_settle hp hc hx hplaced hpos htree hpos' hsize'
  refine ⟨s', h, hp.inserted hready hroom hi (insertBefore_measured hm hc hx hblock ha h) ?_, hi⟩
  rw [htree]
  exact hspliced.threaded hm.owned hx.detached hp.threaded (fun _ => rfl)

/-- The block behind a new one gets a new position for its first child. -/
theorem insertAfter_positioned (ha : a ∈ s.children c)
    (hlast : a ∈ (s.children c).getLast? → s.nextSibling a = none) :
    ∃ s', insertAfter env c (some a) x s = some s' ∧ s'.Positioned f v ∧ Inserts s s' f c x := by
  have hm := hp.measured
  obtain ⟨l, r, hsplit⟩ := List.append_of_mem ha
  have hplaced := placeAfter_placed hx.fits hm.owned hsplit
  have hspliced := placeAfter_spliced hx.fits hx.detached hm.owned hsplit (hp.threaded.next_eq hsplit hlast)
  have hpos : ∀ y, Unlinked (s.pos y) → (placeAfter c (some a) x s).pos y = s.pos y := fun y hy =>
    placeAfter_pos hy _
  have hsize : (placeAfter c (some a) x s).size = s.size := by
    rw [placeAfter_toHeap hx.fits (hm.owned.fits ha) hsplit (hm.owned.notMem hsplit).1, linkAfter_toHeap]
  obtain ⟨o, s₂, ⟨h₁, h₂⟩, htree, hpos₂, hsize₂⟩ := hp.settle hmode hc hx hplaced hfuel hready.1 hroom hsize hpos
  obtain ⟨s', h₃, hheap, hposf, hpos'⟩ := refreshNext_offset (s := s₂) (f := f) (x := x) hmode
    (htree ▸ hplaced.owned hm.owned hx.detached hx.fits) (by rw [htree, hplaced.kind, hm.kind])
  have h : insertAfter env c (some a) x s = some s' := by
    simp only [insertAfter, h₁, Option.bind_eq_bind, Option.bind_some]
    rw [h₂]
    exact h₃
  have hi₂ := inserts_of_settle hp hc hx hplaced hpos htree hpos₂ hsize₂
  have hi : Inserts s s' f c x := by
    refine ⟨?_, ?_, ?_, hposf.trans hi₂.pos_function, ?_, fun y hy => ?_⟩
    · rw [hheap]
      exact hi₂.placed
    · rw [hheap]
      exact hi₂.function
    · rw [hheap]
      exact hi₂.size
    · rcases hpos' x with h | h
      · rw [h]
        exact hi₂.pos_new
      · exact h
    · rcases hpos' y with h | h
      · rw [h]
        exact hi₂.pos y hy
      · exact .inr h
  refine ⟨s', h, hp.inserted hready hroom hi (insertAfter_measured hm hc hx hblock ha h) ?_, hi⟩
  rw [hheap, htree]
  exact hspliced.threaded hm.owned hx.detached hp.threaded (fun _ => rfl)

end Insert

/-! ### Instructions before a jump target, and vectors -/

section Vectors

variable {v : Address} {xs : List ChunkId}

theorem Ready.of_inserts (hi : Inserts s s' f c x) (hyc : y ≠ c) (hy : s.Ready y) : s'.Ready y := by
  have hkeep : ∀ z, (∀ p ∈ s.pos z, ∃ o, p = .offset o) → ∀ p ∈ s'.pos z, ∃ o, p = .offset o := by
    intro z hz p hp
    rcases hi.pos z (unlinked_offset hz) with h | ⟨o, h⟩
    · exact hz p (h ▸ hp)
    · rw [h, Option.mem_some_iff] at hp
      exact ⟨o, hp.symm⟩
  obtain ⟨l, r, hplaced⟩ := hi.placed
  refine ⟨hkeep y hy.1, fun z hz => ?_⟩
  rcases hplaced.mem_iff.1 hz with hz | ⟨h, -⟩
  · obtain ⟨o, ho⟩ := hy.2 z hz
    rcases hi.pos z (by rw [ho]; exact fun _ => rfl) with h | h
    · exact ⟨o, h.trans ho⟩
    · exact h
  · exact absurd h hyc

/-- What the rest of a vector still finds after its first instruction is inserted. -/
theorem Inserts.tail (hi : Inserts s s' f c x) (hm : s.Measured f) (hxs : ∀ y ∈ x :: xs, s.Insertable c y)
    (hnd : (x :: xs).Nodup) (hready : ∀ y ∈ x :: xs, s.Ready y) (hroom : s.size f + s.sum (x :: xs) < 2 ^ 63) :
    (∀ y ∈ xs, s'.Insertable c y) ∧ xs.Nodup ∧ (∀ y ∈ xs, s'.Ready y) ∧ s'.size f + s'.sum xs < 2 ^ 63 := by
  obtain ⟨l, r, hplaced⟩ := hi.placed
  refine ⟨hplaced.insertable_tail hxs hnd, (List.nodup_cons.1 hnd).2, fun y hy => ?_, ?_⟩
  · have hyx := hxs y (List.mem_cons_of_mem x hy)
    exact Ready.of_inserts hi (hm.insertable_ne hyx).2.symm (hready y (List.mem_cons_of_mem x hy))
  · have hsum : s'.sum xs = s.sum xs := by
      refine Heap.sum_congr fun y hy => ?_
      have hyx := hxs y (List.mem_cons_of_mem x hy)
      exact hi.size y hyx.detached (hm.insertable_ne hyx).1.symm fun he => (List.nodup_cons.1 hnd).1 (he ▸ hy)
    rw [Heap.sum_cons] at hroom
    rw [hsum, hi.function]
    omega

variable (hmode : env.mode = .offset) (hfuel : 3 ≤ env.fuel)
include hmode hfuel

theorem insertBeforeJumpTo_positioned (hp : s.Positioned f v) (hc : c ∈ s.children f) (hx : s.Insertable c x)
    (hready : s.Ready x) (hroom : s.size f + s.size x < 2 ^ 63) (ha : a ∈ s.children c)
    (hlast : a ∈ (s.children c).getLast? → s.nextSibling a = none) :
    ∃ s', insertBeforeJumpTo env c (some a) x s = some s' ∧ s'.Positioned f v ∧ Inserts s s' f c x := by
  have hm := hp.measured
  have hcf := hm.ne_function hc
  obtain ⟨s₁, h₁, hp₁, hi⟩ := insertAfter_positioned hmode hfuel hp (.inr hc) hx hready
    (fun h => absurd h hcf) hroom ha hlast
  have h : insertBeforeJumpTo env c (some a) x s = some (swapSemantics a x s₁) := by
    simp only [insertBeforeJumpTo, h₁, Option.bind_eq_bind, Option.bind_some, Option.pure_def]
  have hsize : ∀ y, y ≠ a → y ≠ x → (swapSemantics a x s₁).size y = s₁.size y := by
    intro y hya hyx
    simp [swapSemantics, State.setSize, hya, hyx]
  have hf := hsize f (hm.ne_function ha).symm (hm.insertable_ne hx).1
  refine ⟨_, h, ?_, ?_⟩
  · refine ⟨insertBeforeJumpTo_measured hm (.inr hc) (hm.block_kind hc) hx ha h, hp₁.threaded, ?_, hp₁.function,
      hp₁.child⟩
    rw [hf]
    exact hp₁.small
  · refine ⟨hi.placed, hf.trans hi.function, fun y hy hyf hyx => ?_, hi.pos_function, hi.pos_new, hi.pos⟩
    rw [hsize y (fun he => hy c (he ▸ ha)) hyx]
    exact hi.size y hy hyf hyx

theorem insertAllAfter_positioned (hp : s.Positioned f v) (hc : c ∈ s.children f)
    (hxs : ∀ x ∈ xs, s.Insertable c x) (hnd : xs.Nodup) (hready : ∀ x ∈ xs, s.Ready x)
    (hroom : s.size f + s.sum xs < 2 ^ 63) (ha : a ∈ s.children c)
    (hlast : xs = [] ∨ (a ∈ (s.children c).getLast? → s.nextSibling a = none)) :
    ∃ s', insertAllAfter env c (some a) xs s = some s' ∧ s'.Positioned f v := by
  induction xs generalizing s a with
  | nil => exact ⟨s, rfl, hp⟩
  | cons x xs ih =>
    have hm := hp.measured
    have hcf := hm.ne_function hc
    have hx := hxs x List.mem_cons_self
    have hlast := hlast.resolve_left (List.cons_ne_nil x xs)
    obtain ⟨s₁, h₁, hp₁, hi⟩ := insertAfter_positioned hmode hfuel hp (.inr hc) hx (hready x List.mem_cons_self)
      (fun h => absurd h hcf) (by rw [Heap.sum_cons] at hroom; omega) ha hlast
    obtain ⟨hxs₁, hnd₁, hready₁, hroom₁⟩ := hi.tail hm hxs hnd hready hroom
    -- the instruction just inserted is the next insert point, with an exact successor
    obtain ⟨l, r, hsplit⟩ := List.append_of_mem ha
    have hspliced := placeAfter_spliced hx.fits hx.detached hm.owned hsplit (hp.threaded.next_eq hsplit hlast)
    rw [← insertAfter_toTree h₁] at hspliced
    have hlast₁ : x ∈ (s₁.children c).getLast? → s₁.nextSibling x = none := by
      intro hx₁
      rw [hspliced.next, if_pos rfl]
      cases r using List.reverseRecOn with
      | nil => rfl
      | append_singleton r z =>
        rw [hspliced.children, Function.update_self, ← List.cons_append, ← List.append_assoc,
          List.getLast?_concat, Option.mem_some_iff] at hx₁
        exact absurd (by simp [hsplit, ← hx₁]) (hx.detached c)
    obtain ⟨s', h, hp'⟩ := ih hp₁ (hspliced.mem_iff.2 (.inl hc)) hxs₁ hnd₁ hready₁ hroom₁
      (hspliced.mem_iff.2 (.inr ⟨rfl, rfl⟩)) (.inr hlast₁)
    exact ⟨s', by rw [insertAllAfter, h₁]; exact h, hp'⟩

omit hmode hfuel in
/-- The loops of `insertBefore` over a vector, for any kind of insertion at `a`. -/
theorem foldlM_insert_positioned {g : State → ChunkId → Option State} (Ok : State → Prop)
    (hg : ∀ s x, s.Positioned f v → c ∈ s.children f → s.Insertable c x → s.Ready x →
      s.size f + s.size x < 2 ^ 63 → a ∈ s.children c → Ok s →
      ∃ s', g s x = some s' ∧ s'.Positioned f v ∧ Inserts s s' f c x ∧ Ok s')
    (hp : s.Positioned f v) (hc : c ∈ s.children f) (hxs : ∀ x ∈ xs, s.Insertable c x) (hnd : xs.Nodup)
    (hready : ∀ x ∈ xs, s.Ready x) (hroom : s.size f + s.sum xs < 2 ^ 63) (ha : a ∈ s.children c)
    (hok : xs = [] ∨ Ok s) : ∃ s', xs.foldlM g s = some s' ∧ s'.Positioned f v := by
  induction xs generalizing s with
  | nil => exact ⟨s, rfl, hp⟩
  | cons x xs ih =>
    obtain ⟨s₁, h₁, hp₁, hi, hok₁⟩ := hg s x hp hc (hxs x List.mem_cons_self) (hready x List.mem_cons_self)
      (by rw [Heap.sum_cons] at hroom; omega) ha (hok.resolve_left (List.cons_ne_nil x xs))
    obtain ⟨hxs₁, hnd₁, hready₁, hroom₁⟩ := hi.tail hp.measured hxs hnd hready hroom
    obtain ⟨l, r, hplaced⟩ := hi.placed
    obtain ⟨s', h, hp'⟩ := ih hp₁ (hplaced.mem_iff.2 (.inl hc)) hxs₁ hnd₁ hready₁ hroom₁
      (hplaced.mem_iff.2 (.inl ha)) (.inr hok₁)
    exact ⟨s', by rw [List.foldlM_cons, h₁]; exact h, hp'⟩

theorem insertAllBefore_positioned {j : Bool} (hp : s.Positioned f v) (hc : c ∈ s.children f)
    (hxs : ∀ x ∈ xs, s.Insertable c x) (hnd : xs.Nodup) (hready : ∀ x ∈ xs, s.Ready x)
    (hroom : s.size f + s.sum xs < 2 ^ 63) (ha : a ∈ s.children c)
    (hlast : xs = [] ∨ j = false ∨ (a ∈ (s.children c).getLast? → s.nextSibling a = none)) :
    ∃ s', insertAllBefore env c (some a) xs j s = some s' ∧ s'.Positioned f v := by
  unfold insertAllBefore
  cases j with
  | false =>
    refine foldlM_insert_positioned (fun _ => True) (fun s x hp hc hx hready hroom ha _ => ?_) hp hc hxs hnd
      hready hroom ha (.inr trivial)
    obtain ⟨s', h, hp', hi⟩ := insertBefore_positioned hmode hfuel hp (.inr hc) hx hready
      (fun h => absurd h (hp.measured.ne_function hc)) hroom ha
    exact ⟨s', h, hp', hi, trivial⟩
  | true =>
    have hsum : s.sum xs.reverse = s.sum xs := by
      unfold Heap.sum
      rw [List.map_reverse, List.sum_reverse]
    refine foldlM_insert_positioned (fun s => a ∈ (s.children c).getLast? → s.nextSibling a = none)
      (fun s x hp hc hx hready hroom ha hlast => ?_) hp hc (fun x hx => hxs x (List.mem_reverse.1 hx))
      (List.nodup_reverse.2 hnd) (fun x hx => hready x (List.mem_reverse.1 hx)) (by rw [hsum]; exact hroom) ha
      (hlast.imp (fun h => by rw [h]; rfl) fun h => h.resolve_left (by simp))
    obtain ⟨s', h, hp', hi⟩ := insertBeforeJumpTo_positioned hmode hfuel hp hc hx hready hroom ha hlast
    refine ⟨s', h, hp', hi, fun ha' => ?_⟩
    -- the insert point is not the last child any more
    obtain ⟨l, r, hsplit⟩ := List.append_of_mem ha
    obtain ⟨s₁, h₁, rfl⟩ := insertBeforeJumpTo_inv h
    have hplaced := insertAfter_placed hx.fits hp.measured.owned hsplit h₁
    have hlist : (swapSemantics a x s₁).children c = l ++ a :: x :: r := by
      change s₁.children c = _
      simp [hplaced.children]
    rw [hlist, List.getLast?_append_cons, List.getLast?_cons_cons] at ha'
    exact absurd (List.mem_of_mem_getLast? ha') (hp'.measured.owned.notMem hlist).2

end Vectors

/-! ## Removals -/

section Remove

variable {v : Address} (hmode : env.mode = .offset) (hp : s.Positioned f v) (hc : c = f ∨ c ∈ s.children f)

include hp in
/-- Fewer children, with the positions they had. -/
theorem State.Positioned.cut (hm : s'.Measured f) (ht : s'.Threaded) (hsmall : s'.size f ≤ s.size f)
    (hsub : ∀ d, (d = f ∨ d ∈ s.children f) → s'.children d ⊆ s.children d) (hposf : s'.pos f = s.pos f)
    (hpos : ∀ d y, (d = f ∨ d ∈ s.children f) → y ∈ s'.children d → Unlinked (s.pos y) → s'.pos y = s.pos y) :
    s'.Positioned f v := by
  refine ⟨hm, ht, lt_of_le_of_lt hsmall hp.small, ?_, ?_⟩
  · obtain ⟨p, hpf, hv⟩ := hp.function
    exact ⟨p, hposf.trans hpf, hv⟩
  · intro d hd y hy
    have hd' : d = f ∨ d ∈ s.children f := hd.imp id fun h => hsub f (.inl rfl) h
    have hy' := hsub d hd' hy
    obtain ⟨o, ho⟩ := hp.child d hd' y hy'
    exact ⟨o, (hpos d y hd' hy (hp.unlinked_child hd' hy')).trans ho⟩

include hp hc in
theorem shrinkSizes_some {s₀ : State} {k : State → Nat} (hparent : s₀.parent = s.parent)
    (hsize : s₀.size = s.size) (hk : k s₀ ≤ s.sum (s.children c))
    (hconst : ∀ s y n, y = c ∨ y = f → k (s.setSize y n) = k s) :
    ∃ s₁, shrinkSizes c k s₀ = some s₁ ∧ s₁.size f + k s₀ = s.size f := by
  have hm := hp.measured
  have hanc : s₀.ancestors c = s.ancestors c := hm.ancestors_eq hc (by rw [hparent]) (by rw [hparent])
  have hk' : ∀ s y n, y ∈ s₀.ancestors c → k (s.setSize y n) = k s := fun s y n hy =>
    hconst s y n (hm.mem_ancestors hc (hanc ▸ hy))
  have hnd : (s₀.ancestors c).Nodup := hanc ▸ hm.ancestors_nodup hc
  have hle : ∀ d ∈ s.ancestors c, k s₀ ≤ s.size d := fun d hd => hk.trans (hm.sum_le hc hd)
  obtain ⟨s₁, h₁⟩ := foldlM_shrink_some (s := s₀) hnd hk' (by
    intro d hd
    rw [hanc] at hd
    rw [hsize]
    exact ⟨hle d hd, lt_of_le_of_lt (hm.size_le_function hc hd) hp.small⟩)
  refine ⟨s₁, h₁, ?_⟩
  have hf := hm.function_mem_ancestors hc
  have := hle f hf
  rw [foldlM_shrink hnd hk' h₁ f, hanc, if_pos hf, hsize]
  omega

include hmode hp hc

theorem remove_positioned (hx : x ∈ s.children c) (hlast : x ∈ (s.children c).getLast? → s.nextSibling x = none) :
    ∃ s', remove env c x s = some s' ∧ s'.Positioned f v := by
  have hm := hp.measured
  obtain ⟨l, r, hsplit⟩ := List.append_of_mem hx
  have hu := unlink_unspliced hm.owned hsplit (hp.threaded.prev_eq hsplit) (hp.threaded.next_eq hsplit hlast)
  have hsize : ((unlink x s).genericRemove c x).size = s.size := by
    unfold State.genericRemove State.setChildren
    split_ifs <;> rw [unlink_toHeap]
  have hpos : ∀ y, Unlinked (s.pos y) → ((unlink x s).genericRemove c x).pos y = s.pos y := by
    intro y hy
    unfold State.genericRemove State.setChildren
    split_ifs <;> exact unlink_pos hy
  have hxc : x ≠ c := by
    rintro rfl
    have := hm.owned.fits hx
    rw [Kind.fits_self] at this
    cases this
  obtain ⟨s₁, h₁, hf⟩ := shrinkSizes_some (k := fun s => s.size x) hp hc hu.parent hsize
    (by rw [hsize]; exact Heap.size_le_sum hx) (by
      rintro s y n (rfl | rfl)
      · simp [State.setSize, hxc]
      · simp [State.setSize, hm.ne_function hx])
  obtain ⟨htree, hpos₁⟩ := shrinkSizes_frame h₁
  have h : remove env c x s = some s₁ := by
    simp only [remove, h₁, Option.bind_eq_bind, Option.bind_some]
    exact updatePos_eq (updateGenerationCounts_offset hmode c)
  refine ⟨s₁, h, hp.cut (remove_measured hm hc hx h) ?_ (by omega) ?_ ?_ ?_⟩
  · rw [htree]
    exact hu.threaded hm.owned hp.threaded
  · intro d _
    rw [htree]
    exact (hu.sublist d).subset
  · rw [hpos₁, hpos f hp.unlinked_function]
  · intro d y _ _ hy
    rw [hpos₁, hpos y hy]

theorem removeLast_positioned (hsplit : s.children c = l ++ m) :
    ∃ s', removeLast env c m.length s = some s' ∧ s'.Positioned f v ∧ s'.pos = s.pos ∧
      s'.size f + s.sum m = s.size f ∧ ∀ y, y ∉ s.children c → s'.nextSibling y = s.nextSibling y := by
  have hm := hp.measured
  obtain ⟨s₀, h₀, -, hparent, hchildren, hsize, hpos⟩ := dropLastChildren_spec hsplit
  obtain ⟨ho, ht, hnext⟩ := dropLastChildren_threaded hm.owned hp.threaded h₀
  obtain ⟨s₁, h₁, hf⟩ := shrinkSizes_some (k := fun _ => s.sum m) hp hc hparent hsize
    (by rw [hsplit, Heap.sum_append]; omega) (fun _ _ _ _ => rfl)
  obtain ⟨htree, hpos₁⟩ := shrinkSizes_frame h₁
  have h : removeLast env c m.length s = some s₁ := by
    simp only [removeLast, h₀, Option.bind_eq_bind, Option.bind_some]
    change (shrinkSizes c (fun _ => s.sum m) s₀).bind _ = _
    rw [h₁]
    exact updatePos_eq (updateGenerationCounts_offset hmode c)
  refine ⟨s₁, h, hp.cut (removeLast_measured hm hc (by rw [hsplit]; simp) h) ?_ (by omega) ?_ ?_ ?_, ?_, hf, ?_⟩
  · rw [htree]
    exact ht
  · intro d _
    rw [htree, hchildren]
    by_cases hd : d = c
    · subst hd
      rw [Function.update_self, hsplit]
      exact List.subset_append_left l m
    · rw [Function.update_of_ne hd]
      exact List.Subset.refl _
  · rw [hpos₁, hpos]
  · intro d y _ _ _
    rw [hpos₁, hpos]
  · rw [hpos₁, hpos]
  · intro y hy
    rw [htree]
    exact hnext y hy

end Remove

/-! ## Splitting a block -/

section Split

variable {v : Address} {newBlock point : ChunkId}

/-- A new block, wherever its position is. -/
theorem newBlock_positioned (hp : s.Positioned f v) (hfresh : s.Fresh newBlock) (hfn : f ≠ newBlock)
    (p : Option Position) : ((s.newBlock newBlock).setPosition newBlock p).Positioned f v := by
  have hchildren : (s.newBlock newBlock).children = s.children := newBlock_children hfresh
  refine hp.cut (newBlock_measured hp.measured hfresh hfn) ?_ ?_ ?_ ?_ ?_
  · exact hp.threaded.congr hchildren fun c x hx => (newBlock_attached hfresh hx).2.2.2
  · simp [State.newBlock, State.setPosition, hfn]
  · intro d _
    change (s.newBlock newBlock).children d ⊆ _
    rw [hchildren]
    exact List.Subset.refl _
  · simp [State.newBlock, State.setPosition, hfn]
  · intro d y _ hy _
    have hy : y ∈ s.children d := hchildren ▸ hy
    have hyn : y ≠ newBlock := fun he => hfresh.detached d (he ▸ hy)
    simp [State.newBlock, State.setPosition, hyn]

theorem clearPointers_positioned (hp : s.Positioned f v) (hcut : ∀ x ∈ m, s.Detached x) (hfm : f ∉ m) :
    (m.foldl clearPointers s).Positioned f v := by
  obtain ⟨hheap, hpos⟩ := foldl_clearPointers m s
  refine hp.cut (clearPointers_measured hp.measured hcut hfm) ?_ ?_ ?_ ?_ ?_
  · exact hp.threaded.congr (by rw [hheap]) fun c x hx => (clearPointers_attached hcut hx).2
  · rw [hheap]
  · intro d _
    rw [hheap]
    exact List.Subset.refl _
  · rw [hpos]
    simp [hfm]
  · intro d y _ hy _
    rw [hheap] at hy
    rw [hpos]
    exact if_neg fun h => hcut y h d hy

/-- A block outside of the function that is being filled. -/
structure Filling (s : State) (f b : ChunkId) (v : Address) : Prop where
  positioned : s.Positioned f v
  outside : Outside s f b
  block : ∃ o, s.pos b = some (.offset o)
  child : ∀ y ∈ s.children b, ∃ o, s.pos y = some (.offset o)

theorem Filling.hasAddress (hf : Filling s f b v) (hfuel : 3 ≤ env.fuel) (s₁ : State)
    (hpos : ∀ y, y = b ∨ y ∈ s.children b → s₁.pos y = s.pos y)
    (hparent : s₁.parent b = none ∧ ∀ y ∈ s.children b, s₁.parent y = some b) :
    (∃ w, HasAddress s₁.toHeap s₁.pos b env.fuel w) ∧
      ∀ y ∈ s.children b, ∃ w, HasAddress s₁.toHeap s₁.pos y env.fuel w := by
  obtain ⟨o, ho⟩ := hf.block
  have hb : HasAddress s₁.toHeap s₁.pos b 1 0 := hasAddress_offset_root ((hpos b (.inl rfl)).trans ho) hparent.1
  refine ⟨⟨0, fun n hn => hb n (by omega)⟩, fun y hy => ?_⟩
  obtain ⟨u, hu⟩ := hf.child y hy
  have := hasAddress_offset ((hpos y (.inr hy)).trans hu) (hparent.2 y hy) hb
  exact ⟨0 + u, fun n hn => this n (by omega)⟩

variable (hmode : env.mode = .offset) (hfuel : 3 ≤ env.fuel)
include hmode hfuel

/-- `append` to the block that is being filled, of an instruction without a position. -/
theorem append_filling (hf : Filling s f b v) (hx : s.Insertable b x) (hnone : s.pos x = none)
    (hroom : s.size b + s.size x < 2 ^ 63) :
    ∃ o s', append env b x s = some s' ∧ s'.pos = Function.update (placeLast b x s).pos x (some (.offset o)) ∧
      ∀ y, y ≠ b → s'.size y = s.size y := by
  have hm := hf.positioned.measured
  have hbx := (hm.insertable_ne hx).2
  have hplaced := placeLast_placed hx.fits
  have hpos : ∀ y, Unlinked (s.pos y) → (placeLast b x s).pos y = s.pos y := fun y hy => placeLast_pos hy
  have hsize : (placeLast b x s).size = s.size := by rw [placeLast_toHeap hx.fits, linkLast_toHeap]
  have hparent : (placeLast b x s).parent b = none := by
    rw [hplaced.parent, Function.update_of_ne hbx, hf.outside.parent]
  obtain ⟨hbaddr, hchild⟩ := hf.hasAddress hfuel (placeLast b x s) (by
    rintro y (rfl | hy)
    · obtain ⟨o, ho⟩ := hf.block
      exact hpos y (by rw [ho]; exact fun _ => rfl)
    · obtain ⟨o, ho⟩ := hf.child y hy
      exact hpos y (by rw [ho]; exact fun _ => rfl)) ⟨hparent, by
    intro y hy
    rw [hplaced.parent, Function.update_of_ne (fun he : y = x => hx.detached b (he ▸ hy))]
    exact hm.owned.parent hy⟩
  obtain ⟨o, ho⟩ := makePositionFor_offset (h := (placeLast b x s).toHeap) (l := s.children b) (r := []) hmode
    (placeLast b x s).pos (by rw [hplaced.children, Function.update_self]) (hx.detached b)
    (fun q hq => ⟨hchild q (List.mem_of_mem_getLast? hq), hbaddr⟩)
  have hensure : ensurePosition env b x (placeLast b x s) =
      some ((placeLast b x s).setPosition x (some (.offset o))) := by
    unfold ensurePosition
    rw [hpos x (by rw [hnone]; exact fun _ => rfl), hnone]
    exact updatePos_eq ho
  have hanc : ((placeLast b x s).setPosition x (some (.offset o))).ancestors b = [b] := by
    change (placeLast b x s).ancestors b = [b]
    rw [Tree.ancestors, hparent]
  have hxb : x ∉ [b] := by simpa using hbx.symm
  have hgrow : ∃ s', growSizes b x ((placeLast b x s).setPosition x (some (.offset o))) = some s' ∧
      ∀ y, y ≠ b → s'.size y = s.size y := by
    unfold growSizes
    rw [hanc]
    obtain ⟨s', h'⟩ := foldlM_grow_some (s := (placeLast b x s).setPosition x (some (.offset o)))
      (List.nodup_singleton b) hxb (by
        intro d hd
        rw [List.mem_singleton.1 hd]
        change (placeLast b x s).size b + (placeLast b x s).size x < 2 ^ 63
        rw [hsize]
        exact hroom)
    refine ⟨s', h', fun y hy => ?_⟩
    rw [foldlM_grow (List.nodup_singleton b) hxb h' y, if_neg (by simpa using hy)]
    change (placeLast b x s).size y = s.size y
    rw [hsize]
  obtain ⟨s', h', hsize'⟩ := hgrow
  refine ⟨o, s', ?_, (growSizes_frame h').2, hsize'⟩
  simp only [append, hensure, Option.bind_eq_bind, Option.bind_some, updateSizesAndAuthorities, h']
  exact updatePos_eq (updateGenerationCounts_offset hmode x)

theorem appendMoved_filling (hf : Filling s f b v) (hx : s.Insertable b x) (hxf : f ≠ x) (hnone : s.pos x = none)
    (hroom : s.size b + s.size x < 2 ^ 63) :
    ∃ s', appendMoved env b s x = some s' ∧ Filling s' f b v ∧ (∀ y, y ≠ b → s'.size y = s.size y) ∧
      (∀ y, y ≠ x → Unlinked (s.pos y) → s'.pos y = s.pos y) ∧
      ∀ y, y ∉ s.children b → y ≠ x → s'.nextSibling y = s.nextSibling y := by
  have hm := hf.positioned.measured
  obtain ⟨o, s₁, h₁, hpos₁, hsize₁⟩ := append_filling hmode hfuel hf hx hnone hroom
  have hout := append_outside hf.outside hx hxf h₁
  have hplaced := append_placed hx.fits h₁
  have hspliced := placeLast_spliced hx.fits hx.detached
  rw [← append_toTree h₁] at hspliced
  have hkeep : ∀ y, y ≠ x → Unlinked (s.pos y) → s₁.pos y = s.pos y := by
    intro y hyx hy
    rw [hpos₁, Function.update_of_ne hyx, placeLast_pos hy]
  have hbx := (hm.insertable_ne hx).2
  have hchildne : ∀ y ∈ s.children b, y ≠ x := fun y hy he => hx.detached b (he ▸ hy)
  obtain ⟨hbaddr, hchild⟩ := hf.hasAddress hfuel s₁ (by
    rintro y (rfl | hy)
    · obtain ⟨o, ho⟩ := hf.block
      exact hkeep y hbx (by rw [ho]; exact fun _ => rfl)
    · obtain ⟨o, ho⟩ := hf.child y hy
      exact hkeep y (hchildne y hy) (by rw [ho]; exact fun _ => rfl)) ⟨hout.parent, by
    intro y hy
    exact hout.measured.owned.parent (hplaced.mem_iff.2 (.inl hy))⟩
  obtain ⟨u, hu⟩ := makePositionFor_offset (h := s₁.toHeap) (l := s.children b) (r := []) hmode s₁.pos
    (by rw [hplaced.children, Function.update_self]) (hx.detached b)
    (fun q hq => ⟨hchild q (List.mem_of_mem_getLast? hq), hbaddr⟩)
  have h : appendMoved env b s x = some (s₁.setPosition x (some (.offset u))) := by
    simp only [appendMoved, h₁, Option.bind_eq_bind, Option.bind_some]
    exact updatePos_eq hu
  have hkeep' : ∀ y, y ≠ x → Unlinked (s.pos y) → (s₁.setPosition x (some (.offset u))).pos y = s.pos y := by
    intro y hyx hy
    simp only [State.setPosition, Function.update_of_ne hyx]
    exact hkeep y hyx hy
  have hfs := hf.positioned
  have hlist : ∀ d y, (d = f ∨ d ∈ s.children f) → y ∈ s₁.children d → y ∈ s.children d := by
    intro d y hd hy
    rcases hplaced.mem_iff.1 hy with hy | ⟨rfl, -⟩
    · exact hy
    · rcases hd with rfl | hd
      · exact absurd rfl hf.outside.ne
      · exact absurd hd (hf.outside.detached f)
  refine ⟨_, h, ⟨?_, ?_, ?_, ?_⟩, hsize₁, hkeep', fun y hy hyx => ?_⟩
  · refine hfs.cut hout.measured ?_ ?_ ?_ (hkeep' f hxf hfs.unlinked_function) ?_
    · exact hspliced.threaded hm.owned hx.detached hfs.threaded (by simp)
    · exact (hsize₁ f hf.outside.ne).le
    · intro d hd y hy
      exact hlist d y hd hy
    · intro d y hd hy hun
      exact hkeep' y (fun he => hx.detached d (he ▸ hlist d y hd hy)) hun
  · exact ⟨hout.measured, hout.detached, hout.ne, hout.parent, hout.size⟩
  · obtain ⟨w, hw⟩ := hf.block
    exact ⟨w, (hkeep' b hbx (by rw [hw]; exact fun _ => rfl)).trans hw⟩
  · intro y hy
    change y ∈ s₁.children b at hy
    rcases hplaced.mem_iff.1 hy with hy | ⟨-, rfl⟩
    · obtain ⟨w, hw⟩ := hf.child y hy
      exact ⟨w, (hkeep' y (hchildne y hy) (by rw [hw]; exact fun _ => rfl)).trans hw⟩
    · exact ⟨u, Function.update_self ..⟩
  · exact hspliced.next_other hyx fun hlast => hy (List.mem_of_mem_getLast? hlast)

theorem foldlM_appendMoved_filling (hf : Filling s f b v) (hm : ∀ x ∈ m, s.Insertable b x) (hnd : m.Nodup)
    (hfm : f ∉ m) (hnone : ∀ x ∈ m, s.pos x = none) (hroom : s.size b + s.sum m < 2 ^ 63) :
    ∃ s', m.foldlM (appendMoved env b) s = some s' ∧ Filling s' f b v ∧ (∀ y, y ≠ b → s'.size y = s.size y) ∧
      ∀ y, y ∉ s.children b → y ∉ m → s'.nextSibling y = s.nextSibling y := by
  induction m generalizing s with
  | nil => exact ⟨s, rfl, hf, fun _ _ => rfl, fun _ _ _ => rfl⟩
  | cons x m ih =>
    rw [List.mem_cons, not_or] at hfm
    rw [Heap.sum_cons] at hroom
    have hx := hm x List.mem_cons_self
    have hmeas := hf.positioned.measured
    have hxm : x ∉ m := (List.nodup_cons.1 hnd).1
    obtain ⟨s₁, h₁, hf₁, hsize₁, hpos₁, hnext₁⟩ := appendMoved_filling hmode hfuel hf hx hfm.1
      (hnone x List.mem_cons_self) (by omega)
    obtain ⟨s₂, h₂, hs₁⟩ := appendMoved_inv h₁
    have hplaced := append_placed hx.fits h₂
    rw [← hs₁] at hplaced
    have hsizeb : s₁.size b = s.size b + s.size x := by
      rw [hf₁.outside.size, hplaced.children, Function.update_self, Heap.sum_append, Heap.sum_cons,
        Heap.sum_nil, hsize₁ x (hmeas.insertable_ne hx).2.symm, hf.outside.size]
      have : s₁.sum (s.children b) = s.sum (s.children b) := Heap.sum_congr fun y hy =>
        hsize₁ y fun he => hf.outside.detached b (he ▸ hy)
      omega
    have hsum : s₁.sum m = s.sum m := Heap.sum_congr fun y hy =>
      hsize₁ y (hmeas.insertable_ne (hm y (List.mem_cons_of_mem x hy))).2.symm
    obtain ⟨s', h', hf', hsize', hnext'⟩ := ih hf₁ (hplaced.insertable_tail hm hnd) (List.nodup_cons.1 hnd).2
      hfm.2 (by
        intro y hy
        have hnone := hnone y (List.mem_cons_of_mem x hy)
        rw [hpos₁ y (fun he => hxm (he ▸ hy)) (by rw [hnone]; exact fun _ => rfl), hnone])
      (by rw [hsizeb, hsum]; omega)
    refine ⟨s', by rw [List.foldlM_cons, h₁]; exact h', hf', fun y hy => (hsize' y hy).trans (hsize₁ y hy), ?_⟩
    intro y hy hym
    rw [List.mem_cons, not_or] at hym
    rw [hnext' y _ hym.2, hnext₁ y hy hym.1]
    intro hmem
    rcases hplaced.mem_iff.1 hmem with h | ⟨-, h⟩
    · exact hy h
    · exact hym.1 h

/-- The new block gets a position. -/
theorem newBlock_makePosition (hp : s.Positioned f v) (hb : b ∈ s.children f) (hpoint : point ∈ s.children b)
    (hfresh : s.Fresh newBlock) (hfn : f ≠ newBlock) :
    ∃ o, (s.newBlock newBlock).updatePos (do
      let pointAddress ← getAddress (s.newBlock newBlock).toHeap env.fuel point
      let address ← getAddress (s.newBlock newBlock).toHeap env.fuel f
      PosM.setPosition newBlock
        (← makePosition env (s.newBlock newBlock).toHeap (some b) newBlock (pointAddress - address))) =
      some ((s.newBlock newBlock).setPosition newBlock (some (.offset o))) := by
  have hposf : (s.newBlock newBlock).pos f = s.pos f := by simp [State.newBlock, hfn]
  have hpos : ∀ d y, (d = f ∨ d ∈ s.children f) → y ∈ s.children d → (s.newBlock newBlock).pos y = s.pos y := by
    intro d y _ hy
    have hyn : y ≠ newBlock := fun he => hfresh.detached d (he ▸ hy)
    simp [State.newBlock, hyn]
  have hparent : ∀ d y, y ∈ s.children d → (s.newBlock newBlock).parent y = some d := fun d y hy =>
    (newBlock_attached hfresh hy).1.trans (hp.measured.owned.parent hy)
  obtain ⟨⟨w, hw⟩, -⟩ := hp.hasAddress hfuel (.inl rfl) hposf hpos hparent
  obtain ⟨u, hu⟩ := (hp.hasAddress hfuel (.inr hb) hposf hpos hparent).2 point hpoint
  refine ⟨u - w, updatePos_eq ?_⟩
  rw [run_bind (hu _ le_rfl), run_bind (hw _ le_rfl), run_bind (makePosition_offset hmode (some b) newBlock (u - w))]
  rfl

theorem splitBlockBefore_positioned (hp : s.Positioned f v) (hb : b ∈ s.children f) (hpoint : point ∈ s.children b)
    (hfresh : s.Fresh newBlock) (hlast : b ∈ (s.children f).getLast? → s.nextSibling b = none) :
    ∃ s', splitBlockBefore env f point newBlock s = some s' ∧ s'.Positioned f v := by
  have hm := hp.measured
  obtain ⟨l, r, hsplit⟩ := List.append_of_mem hpoint
  have hfn : f ≠ newBlock := by
    rintro rfl
    simp [hfresh.children] at hb
  have hbn : b ≠ newBlock := fun he => hfresh.detached f (he ▸ hb)
  have hmoved : ∀ x ∈ point :: r, x ∈ s.children b := fun x hx => by
    rw [hsplit]
    exact List.mem_append_right l hx
  have hbm : b ∉ point :: r := fun hx => by
    have := hm.owned.fits (hmoved b hx)
    rw [Kind.fits_self] at this
    cases this
  obtain ⟨o, h₁⟩ := newBlock_makePosition hmode hfuel hp hb hpoint hfresh hfn
  generalize hs₁ : (s.newBlock newBlock).setPosition newBlock (some (.offset o)) = s₁ at h₁
  have hp₁ : s₁.Positioned f v := hs₁ ▸ newBlock_positioned hp hfresh hfn _
  have hheap₁ : s₁.toHeap = (s.newBlock newBlock).toHeap := by rw [← hs₁]; rfl
  have hc₁ : s₁.children = s.children := by rw [hheap₁, newBlock_children hfresh]
  have hsplit₁ : s₁.children b = l ++ point :: r := by rw [hc₁, hsplit]
  have hnd : (point :: r).Nodup := by
    have hnd := hm.owned.nodup b
    rw [hsplit] at hnd
    exact (List.nodup_append.1 hnd).2.1
  -- the instructions behind the split point leave the old block
  obtain ⟨s₂, h₂, hp₂, hpos₂, hsize₂, hnext₂⟩ := removeLast_positioned hmode hp₁ (.inr (hc₁ ▸ hb)) hsplit₁
  obtain ⟨-, -, hc₂, hcut, hins⟩ := split_cut hm.owned hb hsplit hfresh hheap₁ h₂
  obtain ⟨hout, hzero, hfm⟩ := split_outside hm hb hsplit hfresh hheap₁ h₂
  obtain ⟨hheap₃, hpos₃⟩ := foldl_clearPointers (point :: r) s₂
  have hempty : ((point :: r).foldl clearPointers s₂).children newBlock = [] := by
    rw [hheap₃]
    simp [hc₂, hbn.symm, hfresh.children]
  have hsum : s₂.sum (point :: r) = s₁.sum (point :: r) := Heap.sum_congr fun y hy =>
    removeLast_size hp₁.measured (.inr (hc₁ ▸ hb)) (fun he : y = b => hbm (he ▸ hy))
      (fun he : y = f => hfm (he ▸ hy)) h₂
  have hsmall := hp₁.small
  -- and fill the new one
  have hfill : Filling ((point :: r).foldl clearPointers s₂) f newBlock v := by
    refine ⟨clearPointers_positioned hp₂ hcut hfm, hout, ⟨o, ?_⟩, by rw [hempty]; simp⟩
    have hnm : newBlock ∉ point :: r := fun hx => hfresh.detached b (hmoved newBlock hx)
    rw [hpos₃, hpos₂, ← hs₁]
    simp [hnm, State.setPosition]
  obtain ⟨s₄, h₄, hfill₄, hsize₄, hnext₄⟩ := foldlM_appendMoved_filling hmode hfuel hfill hins hnd hfm
    (by
      intro x hx
      rw [hpos₃]
      exact if_pos hx)
    (by
      rw [hheap₃]
      change s₂.size newBlock + s₂.sum (point :: r) < 2 ^ 63
      omega)
  obtain ⟨-, hc₄, -, hinsert, hb₄⟩ := split_moved hm.owned hb hsplit hfresh hheap₁ h₂ h₄
  have hready : s₄.Ready newBlock := by
    refine ⟨fun p hp => ?_, hfill₄.child⟩
    obtain ⟨u, hu⟩ := hfill₄.block
    rw [hu, Option.mem_some_iff] at hp
    exact ⟨u, hp.symm⟩
  have hroom : s₄.size f + s₄.size newBlock < 2 ^ 63 := by
    have hlist : s₄.children newBlock = point :: r := by rw [hc₄, Function.update_self]
    have hsum₄ : s₄.sum (point :: r) = s₂.sum (point :: r) := Heap.sum_congr fun y hy => by
      rw [hsize₄ y fun he => hfresh.detached b (he ▸ hmoved y hy), hheap₃]
    have hf₄ : s₄.size f = s₂.size f := by rw [hsize₄ f hfn, hheap₃]
    rw [hfill₄.outside.size, hlist, hsum₄, hf₄]
    omega
  have hlast₄ : b ∈ (s₄.children f).getLast? → s₄.nextSibling b = none := by
    have hlist : s₄.children f = s.children f := by
      rw [hc₄, Function.update_of_ne hfn, Function.update_of_ne (hm.ne_function hb).symm]
    have hnext : s₄.nextSibling b = s.nextSibling b := by
      have hself : b ∉ s₁.children b := fun h => by
        have := hp₁.measured.owned.fits h
        rw [Kind.fits_self] at this
        cases this
      rw [hnext₄ b (by rw [hempty]; simp) hbm, hheap₃]
      simp only [hbm, if_false]
      rw [hnext₂ b hself, hheap₁]
      exact Function.update_of_ne hbn ..
    rw [hlist, hnext]
    exact hlast
  -- which is then inserted behind the old one
  obtain ⟨s', h₅, hp', -⟩ := insertAfter_positioned hmode hfuel hfill₄.positioned (.inl rfl) hinsert hready
    (fun _ => hfill₄.outside.size) hroom hb₄ hlast₄
  refine ⟨s', ?_, hp'⟩
  have hlen : (l ++ point :: r).length - l.length = (point :: r).length := by simp
  have hne : l ++ point :: r ≠ [] := by simp
  unfold splitBlockBefore
  simp only [hm.owned.parent hpoint, hm.block_kind hb, hsplit, hne, if_false, guard, if_true,
    Option.bind_eq_bind, Option.bind_some, Option.pure_def, h₁, hsplit₁, idxOf?_middle (hm.owned.notMem hsplit).1,
    hlen, h₂, List.drop_left, h₄, h₅]

end Split

end Egalito.Mutator
