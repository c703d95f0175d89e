import Egalito.Mutator.Offset
/-!
# The layout of a function

The destructor of a mutator refreshes the offsets below the function, block by
block. A child behind others gets the offset and the size of the one before it,
so the offsets become the sums of the sizes in front.
-/

namespace Egalito.Mutator

open Lib ChunkMutator PosM

variable {h : Heap} {s s' : State} {env : Env} {ps ps' : Positions} {f b c x y a : ChunkId}
  {l r : List ChunkId} {v w : Address} {d : Nat}

/-! ## One pass over the positions -/

/-- The offsets of the children `l` are the sums of the sizes before them. -/
def Laid (h : Heap) (ps : Positions) (l : List ChunkId) : Prop :=
  ∀ l₁ x l₂, l = l₁ ++ x :: l₂ → ps x = some (.offset (BitVec.ofNat 64 (h.sum l₁)))

theorem laid_nil : Laid h ps [] := by
  intro l₁ x l₂ hl
  simp at hl

theorem Laid.congr (hl : Laid h ps l) (hps : ∀ x ∈ l, ps' x = ps x) : Laid h ps' l := by
  intro l₁ x l₂ hsplit
  rw [hps x (by simp [hsplit])]
  exact hl l₁ x l₂ hsplit

theorem Laid.concat (hl : Laid h ps l) (hx : ps x = some (.offset (BitVec.ofNat 64 (h.sum l)))) :
    Laid h ps (l ++ [x]) := by
  intro l₁ y l₂ hsplit
  cases l₂ using List.reverseRecOn with
  | nil =>
    obtain ⟨rfl, h⟩ := List.append_inj' hsplit rfl
    cases h
    exact hx
  | append_singleton l₂ z =>
    rw [← List.cons_append, ← List.append_assoc] at hsplit
    exact hl l₁ y l₂ (List.append_inj' hsplit rfl).1

/-- A child behind `l` is put behind the sizes of `l`. -/
theorem recalculate_offset (fuel : Nat) {o : Address} (hx : ps x = some (.offset o)) (hparent : h.parent x = some c)
    (hprev : h.previousSibling x = l.getLast?) (hlparent : ∀ y ∈ l, h.parent y = some c) (hl : Laid h ps l)
    (hc : HasAddress h ps c d w) (hd : d < fuel) :
    recalculate h fuel x ps = some ((), Function.update ps x (some (.offset (BitVec.ofNat 64 (h.sum l))))) := by
  unfold recalculate
  rw [run_bind (run_position hx)]
  suffices offsetRecalculate h (getAddress h fuel) x ps = some (BitVec.ofNat 64 (h.sum l), ps) by
    simp only [recalculated, bind_assoc]
    rw [run_bind this]
    rfl
  unfold offsetRecalculate
  simp only [hparent, hprev]
  cases l using List.reverseRecOn with
  | nil => rfl
  | append_singleton l q =>
    have hq := hasAddress_offset (hl l q [] rfl) (hlparent q (by simp)) hc
    simp only [List.getLast?_concat]
    rw [run_bind (hq fuel hd), run_bind (hc fuel hd.le)]
    have hadd : w + BitVec.ofNat 64 (h.sum l) - w + BitVec.ofNat 64 (h.size q) =
        BitVec.ofNat 64 (h.sum (l ++ [q])) := by
      rw [BitVec.add_comm w, BitVec.add_sub_cancel, ← BitVec.ofNat_add, Heap.sum_append, Heap.sum_cons, Heap.sum_nil,
        Nat.add_zero]
    rw [hadd]
    rfl

theorem updatePositionHelper_some {depth : Nat} {p : Position} (hc : ps c = some p)
    (hrec : recalculate h env.fuel c ps = some ((), ps')) :
    updatePositionHelper env h (depth + 1) c ps = (h.children c).forM (updatePositionHelper env h depth) ps' := by
  unfold updatePositionHelper
  rw [run_bind (show (get : PosM Positions) ps = some (ps, ps) from rfl)]
  simp only [hc, Option.isSome_some, if_true]
  exact run_bind hrec

/-- What the pass finds in a function: the parts of `Positioned` that it uses. -/
structure Refreshable (h : Heap) (ps : Positions) (f : ChunkId) (v : Address) : Prop where
  owned : h.Owned
  kind : h.kind f = .function
  prev : ∀ {c l x r}, h.children c = l ++ x :: r → h.previousSibling x = l.getLast?
  function : ∃ p, ps f = some p ∧ p.absoluteAddress = some v
  child : ∀ c, (c = f ∨ c ∈ h.children f) → ∀ y ∈ h.children c, ∃ o, ps y = some (.offset o)

theorem State.Positioned.refreshable (hp : s.Positioned f v) : Refreshable s.toHeap s.pos f v :=
  ⟨hp.measured.owned, hp.measured.kind, hp.threaded.prev_eq, hp.function, hp.child⟩

section Pass

variable (hfuel : 3 ≤ env.fuel)
include hfuel

/-- The instructions of a block, once the block has its offset. -/
theorem forM_instructions (depth : Nat) (ho : h.Owned) (hb : h.kind b = .block)
    (hprev : ∀ {c l x r}, h.children c = l ++ x :: r → h.previousSibling x = l.getLast?)
    (hchild : ∀ y ∈ h.children b, ∃ o, ps y = some (.offset o))
    (haddr : ∀ ps', (∀ y, y ∉ h.children b → ps' y = ps y) → HasAddress h ps' b 2 w) :
    ∃ ps', (h.children b).forM (updatePositionHelper env h (depth + 1)) ps = some ((), ps') ∧
      Laid h ps' (h.children b) ∧ ∀ y, y ∉ h.children b → ps' y = ps y := by
  refine forM_total (fun done ps' => Laid h ps' done ∧ ∀ y, y ∉ done → ps' y = ps y) ?_ ⟨laid_nil, fun y _ => rfl⟩
  rintro done x rest ps₁ hsplit ⟨hlaid, hframe⟩
  have hx : x ∈ h.children b := by simp [hsplit]
  have hdone : ∀ y ∈ done, y ∈ h.children b := fun y hy => by simp [hsplit, hy]
  have hxdone := (ho.notMem hsplit).1
  obtain ⟨o, hox⟩ := hchild x hx
  have hrec := recalculate_offset env.fuel ((hframe x hxdone).trans hox) (ho.parent hx) (hprev hsplit)
    (fun y hy => ho.parent (hdone y hy)) hlaid (haddr ps₁ fun y hy => hframe y fun hyd => hy (hdone y hyd)) (by omega)
  have hleaf : h.children x = [] := by
    have hkx : h.kind x = .instruction := by
      have := ho.fits hx
      rw [hb] at this
      revert this
      cases h.kind x <;> simp [Kind.fits]
    cases hcx : h.children x with
    | nil => rfl
    | cons z zs =>
      have := ho.fits (c := x) (x := z) (by simp [hcx])
      rw [hkx] at this
      simp [Kind.fits] at this
  refine ⟨Function.update ps₁ x (some (.offset (BitVec.ofNat 64 (h.sum done)))), ?_,
    Laid.concat (hlaid.congr fun y hy => ?_) (Function.update_self ..), fun y hy => ?_⟩
  · rw [updatePositionHelper_some ((hframe x hxdone).trans hox) hrec, hleaf]
    rfl
  · exact Function.update_of_ne (fun he : y = x => hxdone (he ▸ hy)) ..
  · rw [List.mem_append, List.mem_singleton, not_or] at hy
    rw [Function.update_of_ne hy.2, hframe y hy.1]

/-- The whole function. -/
theorem updatePositionHelper_laid (hr : Refreshable h ps f v) :
    ∃ ps', updatePositionHelper env h env.fuel f ps = some ((), ps') ∧ Laid h ps' (h.children f) ∧
      (∀ b ∈ h.children f, Laid h ps' (h.children b)) ∧
      ∀ y, y ∉ h.children f → (∀ b ∈ h.children f, y ∉ h.children b) → ps' y = ps y := by
  obtain ⟨depth, hdepth⟩ := Nat.exists_eq_add_of_le' hfuel
  have ho := hr.owned
  obtain ⟨p, hpf, hv⟩ := hr.function
  have hkind : ∀ {b}, b ∈ h.children f → h.kind b = .block := by
    intro b hb
    have := ho.fits hb
    rw [hr.kind] at this
    revert this
    cases h.kind b <;> simp [Kind.fits]
  have hne : ∀ {c y}, y ∈ h.children c → y ≠ f := by
    rintro c y hy rfl
    have := ho.fits hy
    rw [hr.kind, Kind.fits_function] at this
    cases this
  have hrecf : recalculate h env.fuel f ps = some ((), ps) := by
    unfold recalculate
    rw [run_bind (run_position hpf)]
    have hsame : recalculated h (getAddress h env.fuel) f p ps = some (p, ps) := by
      cases p <;> simp_all [Position.absoluteAddress, recalculated] <;> rfl
    rw [run_bind hsame, run_setPosition, ← hpf, Function.update_eq_self]
  rw [hdepth, updatePositionHelper_some hpf hrecf]
  refine forM_total (fun done ps' => Laid h ps' done ∧ (∀ b ∈ done, Laid h ps' (h.children b)) ∧
    ∀ y, y ∉ done → (∀ b ∈ done, y ∉ h.children b) → ps' y = ps y) ?_ ⟨laid_nil, by simp, fun y _ _ => rfl⟩
  rintro done b rest ps₁ hsplit ⟨hlaid, hblocks, hframe⟩
  have hb : b ∈ h.children f := by simp [hsplit]
  have hdone : ∀ y ∈ done, y ∈ h.children f := fun y hy => by simp [hsplit, hy]
  have hbdone := (ho.notMem hsplit).1
  -- a block is not an instruction, and an instruction is in one block only
  have hlevel : ∀ {b' y}, b' ∈ h.children f → y ∈ h.children b' → y ∉ h.children f := by
    intro b' y hb' hy hyf
    exact hne hb' (ho.unique hy hyf)
  have hf₁ : ps₁ f = some p := by
    rw [hframe f (fun hfd => hne (hdone f hfd) rfl) (fun b' _ hfb => hne hfb rfl), hpf]
  have hkeep : ∀ y ∈ h.children b, ps₁ y = ps y := fun y hy =>
    hframe y (fun hyd => hlevel hb hy (hdone y hyd)) fun b' hb' hyb =>
      hbdone (ho.unique hyb hy ▸ hb')
  obtain ⟨o, hob⟩ := hr.child f (.inl rfl) b hb
  have hb₁ : ps₁ b = some (.offset o) :=
    (hframe b hbdone fun b' hb' hbb => hlevel (hdone b' hb') hbb hb).trans hob
  have hrec := recalculate_offset env.fuel hb₁ (ho.parent hb) (hr.prev hsplit)
    (fun y hy => ho.parent (hdone y hy)) hlaid (hasAddress_absolute hf₁ hv) (by omega)
  have hself : b ∉ h.children b := fun hbb => hlevel hb hbb hb
  obtain ⟨psb, hpsb, hsame, hother⟩ : ∃ psb, recalculate h env.fuel b ps₁ = some ((), psb) ∧
      psb b = some (.offset (BitVec.ofNat 64 (h.sum done))) ∧ ∀ y, y ≠ b → psb y = ps₁ y :=
    ⟨_, hrec, Function.update_self .., fun y hy => Function.update_of_ne hy ..⟩
  have hchild : ∀ y ∈ h.children b, ∃ o, psb y = some (.offset o) := by
    intro y hy
    obtain ⟨u, hu⟩ := hr.child b (.inr hb) y hy
    exact ⟨u, (hother y fun he : y = b => hself (he ▸ hy)).trans ((hkeep y hy).trans hu)⟩
  obtain ⟨ps₂, hrun₂, hlaid₂, hframe₂⟩ := forM_instructions hfuel depth ho (hkind hb) hr.prev hchild
    (fun ps₃ h₃ => by
      have hf₃ : ps₃ f = some p := (h₃ f fun hfb => hne hfb rfl).trans ((hother f (hne hb).symm).trans hf₁)
      exact hasAddress_offset ((h₃ b hself).trans hsame) (ho.parent hb) (hasAddress_absolute hf₃ hv))
  have hout : ∀ y, y ∉ h.children b → y ≠ b → ps₂ y = ps₁ y := fun y hy hyb =>
    (hframe₂ y hy).trans (hother y hyb)
  refine ⟨ps₂, ?_, Laid.concat (hlaid.congr fun y hy => ?_) ?_, ?_, ?_⟩
  · rw [updatePositionHelper_some hb₁ hpsb]
    exact hrun₂
  · exact hout y (fun hyb => hlevel hb hyb (hdone y hy)) fun he => hbdone (he ▸ hy)
  · rw [hframe₂ b hself, hsame]
  · intro b' hb'
    rcases List.mem_append.1 hb' with hb' | hb'
    · refine (hblocks b' hb').congr fun y hy => hout y (fun hyb => ?_) fun he => ?_
      · exact hbdone (ho.unique hy hyb ▸ hb')
      · exact hlevel (hdone b' hb') hy (he ▸ hb)
    · rw [List.mem_singleton.1 hb']
      exact hlaid₂
  · intro y hy hyb
    rw [List.mem_append, List.mem_singleton, not_or] at hy
    rw [hout y (hyb b (by simp)) hy.2]
    exact hframe y hy.1 fun b' hb' => hyb b' (List.mem_append_left _ hb')

end Pass

/-! ## The destructor -/

/-- The address of a chunk, when the code that reads it returns. -/
def State.address (env : Env) (s : State) (c : ChunkId) : Option Address :=
  (getAddress s.toHeap env.fuel c s.pos).map Prod.fst

/-- Instructions are laid out one behind the other, and a block starts at its first instruction. -/
structure State.LaidOut (env : Env) (s : State) (f : ChunkId) (v : Address) : Prop where
  function : s.address env f = some v
  instruction : ∀ {l b r l' i r'}, s.children f = l ++ b :: r → s.children b = l' ++ i :: r' →
    s.address env i = some (v + BitVec.ofNat 64 (s.sum (l.flatMap s.children ++ l')))
  block : ∀ {b i r}, b ∈ s.children f → s.children b = i :: r → s.address env b = s.address env i

theorem HasAddress.address {d : Nat} (ha : HasAddress s.toHeap s.pos c d w) (hd : d ≤ env.fuel) :
    s.address env c = some w := by
  unfold State.address
  rw [ha env.fuel hd]
  rfl

/-- The blocks before one take the room of their instructions. -/
theorem Heap.Measured.sum_blocks (hm : h.Measured f) (hl : ∀ b ∈ l, b ∈ h.children f) :
    h.sum l = h.sum (l.flatMap h.children) := by
  induction l with
  | nil => rfl
  | cons b l ih =>
    rw [List.flatMap_cons, Heap.sum_append, Heap.sum_cons, hm.block b (hl b List.mem_cons_self),
      ih fun c hc => hl c (List.mem_cons_of_mem b hc)]

theorem laidOut_of_laid (hfuel : 3 ≤ env.fuel) (hp : s.Positioned f v) (hf : Laid s.toHeap s.pos (s.children f))
    (hb : ∀ b ∈ s.children f, Laid s.toHeap s.pos (s.children b)) : s.LaidOut env f v := by
  have hm := hp.measured
  have haf : HasAddress s.toHeap s.pos f 1 v := by
    obtain ⟨p, hpf, hv⟩ := hp.function
    exact hasAddress_absolute hpf hv
  have hab : ∀ {l b r}, s.children f = l ++ b :: r →
      HasAddress s.toHeap s.pos b 2 (v + BitVec.ofNat 64 (s.sum l)) := by
    intro l b r hsplit
    exact hasAddress_offset (hf l b r hsplit) (hm.owned.parent (by simp [hsplit])) haf
  have hai : ∀ {l b r l' i r'}, s.children f = l ++ b :: r → s.children b = l' ++ i :: r' →
      HasAddress s.toHeap s.pos i 3 (v + BitVec.ofNat 64 (s.sum l) + BitVec.ofNat 64 (s.sum l')) := by
    intro l b r l' i r' hsplit hsplit'
    exact hasAddress_offset (hb b (by simp [hsplit]) l' i r' hsplit') (hm.owned.parent (by simp [hsplit']))
      (hab hsplit)
  refine ⟨haf.address (by omega), ?_, ?_⟩
  · intro l b r l' i r' hsplit hsplit'
    rw [(hai hsplit hsplit').address hfuel, BitVec.add_assoc, ← BitVec.ofNat_add,
      hm.sum_blocks (l := l) (fun c hc => by simp [hsplit, hc]), ← Heap.sum_append]
  · intro b i r hmem hsplit'
    obtain ⟨l, r', hsplit⟩ := List.append_of_mem hmem
    rw [(hab hsplit).address (by omega), (hai hsplit (show s.children b = [] ++ i :: r from hsplit')).address hfuel]
    simp

section Destroy

variable (hmode : env.mode = .offset) (hfuel : 3 ≤ env.fuel) (hp : s.Positioned f v)
include hmode hfuel hp

/-- A destructor that reaches the function gives every chunk below it the offset that is right,
and changes nothing else. -/
theorem destroy_laid (hc : c = f ∨ s.parent c = some f ∧ ∀ p ∈ s.pos c, p.isAbsolute = false) :
    ∃ ps', (Step.destroy c).run env s = some { s with pos := ps' } ∧ Laid s.toHeap ps' (s.children f) ∧
      (∀ b ∈ s.children f, Laid s.toHeap ps' (s.children b)) ∧
      ∀ y, y ∉ s.children f → (∀ b ∈ s.children f, y ∉ s.children b) → ps' y = s.pos y := by
  have hm := hp.measured
  obtain ⟨p, hpf, hv⟩ := hp.function
  obtain ⟨ps', hrun, hf, hb, hframe⟩ := updatePositionHelper_laid hfuel hp.refreshable
  have habs : p.isAbsolute = true := by
    cases p <;> simp_all [Position.absoluteAddress, Position.isAbsolute]
  have hupdate : updatePositions env s.toHeap c s.pos = some ((), ps') := by
    have hround : ∀ c, (do
        if (((← get) c).map Position.isAbsolute).getD false then
          updatePositionHelper env s.toHeap env.fuel c : PosM Unit) s.pos =
        if ((s.pos c).map Position.isAbsolute).getD false then updatePositionHelper env s.toHeap env.fuel c s.pos
        else some ((), s.pos) := by
      intro c
      rw [run_bind (show (get : PosM Positions) s.pos = some (s.pos, s.pos) from rfl)]
      split_ifs <;> rfl
    have hlast := (hround f).trans ((if_pos (by simp [hpf, habs])).trans hrun)
    unfold updatePositions
    simp only [hmode, Mode.needsUpdatePasses, beq_self_eq_true, Bool.or_true, if_true]
    rcases hc with rfl | ⟨hparent, hpos⟩
    · rw [hm.ancestors_function]
      exact (run_bind hlast).trans rfl
    · have hskip : ¬ ((s.pos c).map Position.isAbsolute).getD false = true := by
        cases hpc : s.pos c with
        | none => simp
        | some q => simpa using hpos q hpc
      have hanc : s.ancestors c = [c, f] := by simp [Tree.ancestors, hparent, hm.parent]
      rw [hanc]
      exact (run_bind ((hround c).trans (if_neg hskip))).trans ((run_bind hlast).trans rfl)
  exact ⟨ps', updatePos_eq hupdate, hf, hb, hframe⟩

omit hmode hfuel in
/-- With the offsets that are right, the function still has its positions. -/
theorem State.Positioned.laid {ps' : Positions} (hf : Laid s.toHeap ps' (s.children f))
    (hb : ∀ b ∈ s.children f, Laid s.toHeap ps' (s.children b))
    (hframe : ∀ y, y ∉ s.children f → (∀ b ∈ s.children f, y ∉ s.children b) → ps' y = s.pos y) :
    ({ s with pos := ps' } : State).Positioned f v := by
  have hm := hp.measured
  obtain ⟨p, hpf, hv⟩ := hp.function
  have hposf : ps' f = s.pos f := hframe f (fun h => hm.ne_function h rfl) fun b _ h => hm.ne_function h rfl
  refine ⟨hm, hp.threaded, hp.small, ⟨p, hposf.trans hpf, hv⟩, ?_⟩
  rintro d hd y hy
  obtain ⟨l, r, hsplit⟩ := List.append_of_mem hy
  rcases hd with rfl | hd
  · exact ⟨_, hf l y r hsplit⟩
  · exact ⟨_, hb d hd l y r hsplit⟩

/-- A destructor that reaches the function lays it out. -/
theorem destroy_laidOut (hc : c = f ∨ s.parent c = some f ∧ ∀ p ∈ s.pos c, p.isAbsolute = false) :
    ∃ s', (Step.destroy c).run env s = some s' ∧ s'.Positioned f v ∧ s'.LaidOut env f v := by
  obtain ⟨ps', hrun, hf, hb, hframe⟩ := destroy_laid hmode hfuel hp hc
  have hp' := hp.laid hf hb hframe
  exact ⟨_, hrun, hp', laidOut_of_laid hfuel hp' hf hb⟩

end Destroy

/-! ## Runs -/

/-- The last child of a list has no successor. -/
def Tree.Terminated (t : Tree) (c a : ChunkId) : Prop := a ∈ (t.children c).getLast? → t.nextSibling a = none

/-- An operation that follows the `nextSibling` of a child does not find a stale one. -/
def Op.Terminated (t : Tree) (c : ChunkId) : Op → Prop
  | insertAfter pt _ | insertBeforeJumpTo pt _ => ∀ a ∈ pt, t.Terminated c a
  | insertAllAfter pt xs => xs = [] ∨ ∀ a ∈ pt, t.Terminated c a
  | insertAllBefore pt xs j => xs = [] ∨ j = false ∨ ∀ a ∈ pt, t.Terminated c a
  | remove x => t.Terminated c x
  | splitBlockBefore point _ => ∀ b ∈ t.parent point, t.Terminated c b
  | prepend _ | append _ | insertBefore _ _ | removeLast _ => True

def Step.Terminated (t : Tree) : Step → Prop
  | call c op => op.Terminated t c
  | destroy _ => True

/-- The insert point of an operation that has one is a chunk. -/
def Op.HasPoint : Op → Prop
  | insertAfter pt _ | insertBefore pt _ | insertBeforeJumpTo pt _ | insertAllAfter pt _ | insertAllBefore pt _ _ =>
    pt.isSome
  | _ => True

/-- What the callers of a mutator provide: insert points, chunks that were not given
another kind of position, and sizes that `adjustBy` accepts. A mutator that is destroyed
was one of the function or of a block of it, which may have been removed meanwhile. -/
def Step.Admissible (s : State) (f : ChunkId) : Step → Prop
  | call _ op => op.HasPoint ∧ (∀ x ∈ op.inserted, s.Ready x) ∧ s.size f + s.sum op.inserted < 2 ^ 63
  | destroy c => c = f ∨ s.parent c = some f ∧ ∀ p ∈ s.pos c, p.isAbsolute = false

section Runs

variable (hmode : env.mode = .offset) (hfuel : 3 ≤ env.fuel)
include hmode hfuel

theorem Op.run_positioned {op : Op} (hp : s.Positioned f v) (hlegal : op.Legal s.toTree c)
    (hwithin : (Step.call c op).Within s.toHeap f) (hadm : (Step.call c op).Admissible s f)
    (hterm : op.Terminated s.toTree c) : ∃ s', op.run env c s = some s' ∧ s'.Positioned f v := by
  have hm := hp.measured
  have hblock := fun x => hwithin.size_block hm (x := x)
  have hc := hwithin.1
  obtain ⟨hpoint, hready, hroom⟩ := hadm
  have hblock' : s.kind c = .block → c ∈ s.children f := by
    intro hkind
    refine hc.resolve_left ?_
    rintro rfl
    rw [hm.kind] at hkind
    cases hkind
  cases op with
  | prepend x =>
    change ∃ s', ChunkMutator.prepend env c x s = some s' ∧ _
    rw [prepend_eq]
    have hx := hblock x hlegal (by simp [inserted])
    have hroom : s.size f + s.size x < 2 ^ 63 := by simpa [inserted] using hroom
    cases hl : s.children c with
    | nil =>
      obtain ⟨s', h, hp', -⟩ := append_positioned hmode hfuel hp hc hlegal (hready x (by simp [inserted])) hx hroom
      exact ⟨s', h, hp'⟩
    | cons a l =>
      obtain ⟨s', h, hp', -⟩ := insertBefore_positioned (a := a) hmode hfuel hp hc hlegal
        (hready x (by simp [inserted])) hx hroom (by simp [hl])
      exact ⟨s', h, hp'⟩
  | append x =>
    obtain ⟨s', h, hp', -⟩ := append_positioned hmode hfuel hp hc hlegal (hready x (by simp [inserted]))
      (hblock x hlegal (by simp [inserted])) (by simpa [inserted] using hroom)
    exact ⟨s', h, hp'⟩
  | insertAfter pt x =>
    obtain ⟨a, rfl⟩ := Option.isSome_iff_exists.1 hpoint
    obtain ⟨s', h, hp', -⟩ := insertAfter_positioned hmode hfuel hp hc hlegal.1 (hready x (by simp [inserted]))
      (hblock x hlegal.1 (by simp [inserted])) (by simpa [inserted] using hroom) (hlegal.2 a rfl) (hterm a rfl)
    exact ⟨s', h, hp'⟩
  | insertBefore pt x =>
    obtain ⟨a, rfl⟩ := Option.isSome_iff_exists.1 hpoint
    obtain ⟨s', h, hp', -⟩ := insertBefore_positioned hmode hfuel hp hc hlegal.1 (hready x (by simp [inserted]))
      (hblock x hlegal.1 (by simp [inserted])) (by simpa [inserted] using hroom) (hlegal.2 a rfl)
    exact ⟨s', h, hp'⟩
  | insertBeforeJumpTo pt x =>
    obtain ⟨a, rfl⟩ := Option.isSome_iff_exists.1 hpoint
    obtain ⟨hkind, hx, ha⟩ := hlegal
    obtain ⟨s', h, hp', -⟩ := insertBeforeJumpTo_positioned hmode hfuel hp (hblock' hkind) hx
      (hready x (by simp [inserted])) (by simpa [inserted] using hroom) (ha a rfl) (hterm a rfl)
    exact ⟨s', h, hp'⟩
  | insertAllAfter pt xs =>
    obtain ⟨a, rfl⟩ := Option.isSome_iff_exists.1 hpoint
    obtain ⟨hkind, hxs, hnd, ha⟩ := hlegal
    exact insertAllAfter_positioned hmode hfuel hp (hblock' hkind) hxs hnd hready hroom (ha a rfl)
      (hterm.imp id fun h => h a rfl)
  | insertAllBefore pt xs j =>
    obtain ⟨a, rfl⟩ := Option.isSome_iff_exists.1 hpoint
    obtain ⟨hkind, hxs, hnd, ha⟩ := hlegal
    exact insertAllBefore_positioned hmode hfuel hp (hblock' hkind) hxs hnd hready hroom (ha a rfl)
      (hterm.imp id fun h => h.imp id fun h => h a rfl)
  | remove x => exact remove_positioned hmode hp hc hlegal hterm
  | removeLast n =>
    have hsplit : s.children c = (s.children c).take ((s.children c).length - n) ++
        (s.children c).drop ((s.children c).length - n) := (List.take_append_drop _ _).symm
    obtain ⟨s', h, hp', -⟩ := removeLast_positioned hmode hp hc hsplit
    have hn : n ≤ (s.children c).length := hlegal
    rw [List.length_drop, Nat.sub_sub_self hn] at h
    exact ⟨s', h, hp'⟩
  | splitBlockBefore point newBlock =>
    obtain ⟨⟨b, hb, hpoint⟩, hfresh⟩ := hlegal
    obtain rfl : c = f := by
      refine hc.resolve_right fun hc => ?_
      have := (kinds_of_split hm.owned hb hpoint).1
      rw [hm.block_kind hc] at this
      cases this
    exact splitBlockBefore_positioned hmode hfuel hp hb hpoint hfresh (hterm b (hm.owned.parent hpoint))

theorem Step.run_positioned {step : Step} (hp : s.Positioned f v) (hlegal : step.Legal s.toTree)
    (hwithin : step.Within s.toHeap f) (hadm : step.Admissible s f) (hterm : step.Terminated s.toTree) :
    ∃ s', step.run env s = some s' ∧ s'.Positioned f v := by
  cases step with
  | call c op =>
    have hkind : s.kind c ≠ .instruction := by
      rcases hwithin.1 with rfl | hc
      · rw [hp.measured.kind]
        exact nofun
      · rw [hp.measured.block_kind hc]
        exact nofun
    simp only [Step.run, hkind, if_false]
    exact op.run_positioned hmode hfuel hp hlegal hwithin hadm hterm
  | destroy c =>
    obtain ⟨s', h, hp', -⟩ := destroy_laidOut hmode hfuel hp hadm
    exact ⟨s', h, hp'⟩

/-- With `MODE_OFFSET`, every run of operations at children of a function and of its blocks,
none of which follows a stale `nextSibling`, ends with the function laid out once a mutator
is destroyed. -/
theorem addresses_are_sums {steps : List Step} (hp : s.Positioned f v)
    (hsteps : Along (Step.run env) (fun s step => step.Legal s.toTree ∧ step.Within s.toHeap f ∧
      step.Admissible s f ∧ step.Terminated s.toTree) s (steps ++ [.destroy c])) :
    ∃ s', exec env s (steps ++ [.destroy c]) = some s' ∧ s'.LaidOut env f v := by
  obtain ⟨hinit, hlast⟩ := along_append.1 hsteps
  obtain ⟨s₁, h₁, hp₁⟩ := foldlM_total (fun s : State => s.Positioned f v)
    (fun s step hp hstep => step.run_positioned hmode hfuel hp hstep.1 hstep.2.1 hstep.2.2.1 hstep.2.2.2) hp hinit
  obtain ⟨⟨-, -, hadm, -⟩, -⟩ := hlast s₁ h₁
  obtain ⟨s', h, -, hlaid⟩ := destroy_laidOut hmode hfuel hp₁ hadm
  refine ⟨s', ?_, hlaid⟩
  unfold exec
  rw [List.foldlM_append, h₁]
  simp only [List.foldlM_cons, List.foldlM_nil, Option.bind_eq_bind, Option.bind_some, h, Option.pure_def]

end Runs

theorem sampleState_positioned : sampleState.Positioned 0 0x1000 := by
  refine ⟨sampleState_measured, (sampleState_exact.linked sampleState_typed).threaded, by decide,
    ⟨.absolute 0x1000, rfl, rfl⟩, ?_⟩
  rintro c (rfl | hc) y hy
  · obtain rfl : y = 1 := by simpa [sampleState] using hy
    exact ⟨0, rfl⟩
  · obtain rfl : c = 1 := by simpa [sampleState] using hc
    obtain rfl : y = 2 := by simpa [sampleState] using hy
    exact ⟨0, rfl⟩

theorem addresses_are_sums_sample :
    ∃ s', exec sampleEnv sampleState sampleSteps = some s' ∧ s'.LaidOut sampleEnv 0 0x1000 := by
  change ∃ s', exec sampleEnv sampleState
    ([.call 1 (.insertAfter (some 2) 3), .call 1 (.remove 2)] ++ [.destroy 1]) = some s' ∧ _
  refine addresses_are_sums rfl (by decide) sampleState_positioned ⟨⟨⟨sampleState_insertable, by simp [sampleState]⟩, ⟨.inr (by decide), ?_⟩,
      ⟨rfl, ?_, by decide⟩, ?_⟩, fun s₁ h₁ => ⟨?_, fun s₂ h₂ => ⟨⟨trivial, trivial, ?_, trivial⟩, fun _ _ => trivial⟩⟩⟩
  · intro x hx hkind
    obtain rfl : x = 3 := by simpa [Op.inserted] using hx
    cases hkind
  · intro x hx
    obtain rfl : x = 3 := by simpa [Op.inserted] using hx
    exact ⟨by decide, by decide⟩
  · intro a ha _
    cases ha
    rfl
  · have hfacts : (Step.run sampleEnv sampleState (.call 1 (.insertAfter (some 2) 3))).map
        (fun s => (s.children 0, s.children 1, s.size 0)) = some ([1], [2, 3], 7) := by decide +kernel
    simp only [h₁, Option.map_some, Option.some.injEq, Prod.mk.injEq] at hfacts
    obtain ⟨hc₀, hc₁, hsize⟩ := hfacts
    refine ⟨?_, ⟨.inr ?_, ?_⟩, ⟨trivial, ?_, ?_⟩, ?_⟩
    · simp [Step.Legal, Op.Legal, hc₁]
    · simp [hc₀]
    · simp [Op.inserted]
    · simp [Op.inserted]
    · simp [Op.inserted, hsize]
    · simp [Step.Terminated, Op.Terminated, Tree.Terminated, hc₁]
  · have hfacts : (exec sampleEnv sampleState [.call 1 (.insertAfter (some 2) 3), .call 1 (.remove 2)]).map
        (fun s => (s.parent 1, s.pos 1)) = some (some 0, some (.offset 0)) := by decide +kernel
    have hrun : exec sampleEnv sampleState [.call 1 (.insertAfter (some 2) 3), .call 1 (.remove 2)] = some s₂ := by
      simp [exec, h₁, h₂]
    simp only [hrun, Option.map_some, Option.some.injEq, Prod.mk.injEq] at hfacts
    refine .inr ⟨hfacts.1, ?_⟩
    rw [hfacts.2]
    simp [Position.isAbsolute]

/-! ### A successor that `remove` leaves behind -/

/-- A function with one block of three instructions. -/
def staleState : State where
  kind c := if c = 0 then .function else if c = 1 then .block else .instruction
  parent c := if c = 1 then some 0 else if c ∈ [2, 3, 4] then some 1 else none
  previousSibling c := if c = 3 then some 2 else if c = 4 then some 3 else none
  nextSibling c := if c = 2 then some 3 else if c = 3 then some 4 else none
  children c := if c = 0 then [1] else if c = 1 then [2, 3, 4] else []
  size c := if c ≤ 1 then 7 else if c = 2 then 1 else if c = 3 then 2 else 4
  pos c := if c = 0 then some (.absolute 0x1000) else if c ≤ 2 then some (.offset 0) else
    if c = 3 then some (.offset 1) else if c = 4 then some (.offset 3) else none

/-- The first instruction is moved to the end of its block, and then removed. -/
def staleSteps : List Step := [.call 1 (.remove 2), .call 1 (.append 2), .call 1 (.remove 2), .destroy 1]

theorem staleState_positioned : staleState.Positioned 0 0x1000 := by
  have hmem : ∀ {c x}, x ∈ staleState.children c → (c = 0 ∧ x = 1) ∨ (c = 1 ∧ (x = 2 ∨ x = 3 ∨ x = 4)) := by
    intro c x hx
    simp only [staleState] at hx
    split_ifs at hx <;> simp_all
  refine ⟨⟨⟨?_, ?_, ?_⟩, rfl, rfl, ?_, rfl⟩, ?_, by decide, ⟨.absolute 0x1000, rfl, rfl⟩, ?_⟩
  · intro c x hx
    rcases hmem hx with ⟨rfl, rfl⟩ | ⟨rfl, rfl | rfl | rfl⟩ <;> rfl
  · intro c
    simp only [staleState]
    split_ifs <;> simp
  · intro c x hx
    rcases hmem hx with ⟨rfl, rfl⟩ | ⟨rfl, rfl | rfl | rfl⟩ <;> rfl
  · intro b hb
    rcases hmem hb with ⟨-, rfl⟩ | ⟨h, -⟩
    · rfl
    · cases h
  · intro c
    simp only [staleState]
    split_ifs <;> simp [Chained]
  · intro c _ y hy
    rcases hmem hy with ⟨rfl, rfl⟩ | ⟨rfl, rfl | rfl | rfl⟩ <;> exact ⟨_, rfl⟩

/-- The second removal takes the old first instruction for the successor of the removed one, and
the new first instruction of the block is then placed behind the last. -/
theorem stale_successor_breaks_layout : staleState.Positioned 0 0x1000 ∧
    Along (Step.run sampleEnv) (fun s step => step.Legal s.toTree ∧ step.Within s.toHeap 0 ∧ step.Admissible s 0)
      staleState staleSteps ∧
    ∃ s', exec sampleEnv staleState staleSteps = some s' ∧ s'.children 0 = [1] ∧ s'.children 1 = [3, 4] ∧
      s'.address sampleEnv 3 = some 0x1007 ∧ ¬ s'.LaidOut sampleEnv 0 0x1000 := by
  have hp := staleState_positioned
  refine ⟨hp, ⟨⟨?_, ⟨.inr (by decide), ?_⟩, ⟨trivial, ?_, by decide⟩⟩, fun s₁ h₁ => ⟨?_, fun s₂ h₂ => ⟨?_, fun s₃ h₃ =>
    ⟨⟨trivial, trivial, ?_⟩, fun _ _ => trivial⟩⟩⟩⟩, ?_⟩
  · exact (by decide : (2 : ChunkId) ∈ staleState.children 1)
  · simp [Op.inserted]
  · simp [Op.inserted]
  · have hfacts : (Step.run sampleEnv staleState (.call 1 (.remove 2))).map
        (fun s => (s.children 0, s.children 2, s.kind 1, s.kind 2)) = some ([1], [], .block, .instruction) := by
      decide +kernel
    have hvalues : (Step.run sampleEnv staleState (.call 1 (.remove 2))).map
        (fun s => (s.pos 2, s.size 0, s.size 2)) = some (some (.offset 0), 6, 1) := by decide +kernel
    simp only [h₁, Option.map_some, Option.some.injEq, Prod.mk.injEq] at hfacts hvalues
    obtain ⟨hc₀, hc₂, hk₁, hk₂⟩ := hfacts
    obtain ⟨hpos, hsize₀, hsize₂⟩ := hvalues
    have hdetached : s₁.Detached 2 := by
      have hrun : remove sampleEnv 1 2 staleState = some s₁ := h₁
      rw [remove_toTree hrun]
      exact (unlink_taken hp.measured.owned (l := []) (r := [3, 4]) rfl).detached_self hp.measured.owned
    refine ⟨⟨hdetached, by rw [hk₁, hk₂]; rfl⟩, ⟨.inr (by simp [hc₀]), ?_⟩, trivial, ?_, ?_⟩
    · simp [Op.inserted, hk₂]
    · simp [Op.inserted, State.Ready, hpos, hc₂]
    · simp [Op.inserted, hsize₀, hsize₂]
  · have hfacts : (exec sampleEnv staleState (staleSteps.take 2)).map
        (fun s => (s.children 0, s.children 1, s.size 0)) = some ([1], [3, 4, 2], 7) := by decide +kernel
    have hrun : exec sampleEnv staleState (staleSteps.take 2) = some s₂ := by simp [exec, staleSteps, h₁, h₂]
    simp only [hrun, Option.map_some, Option.some.injEq, Prod.mk.injEq] at hfacts
    obtain ⟨hc₀, hc₁, hsize⟩ := hfacts
    refine ⟨?_, ⟨.inr (by simp [hc₀]), by simp [Op.inserted]⟩, trivial, by simp [Op.inserted], ?_⟩
    · simp [Step.Legal, Op.Legal, hc₁]
    · simp [Op.inserted, hsize]
  · have hfacts : (exec sampleEnv staleState (staleSteps.take 3)).map
        (fun s => (s.parent 1, s.pos 1)) = some (some 0, some (.offset 0)) := by decide +kernel
    have hrun : exec sampleEnv staleState (staleSteps.take 3) = some s₃ := by simp [exec, staleSteps, h₁, h₂, h₃]
    simp only [hrun, Option.map_some, Option.some.injEq, Prod.mk.injEq] at hfacts
    refine .inr ⟨hfacts.1, ?_⟩
    rw [hfacts.2]
    simp [Position.isAbsolute]
  · have hfacts : (exec sampleEnv staleState staleSteps).map
        (fun s => (s.children 0, s.children 1, s.address sampleEnv 3)) = some ([1], [3, 4], some 0x1007) := by
      decide +kernel
    obtain ⟨s', hs', heq⟩ := Option.map_eq_some_iff.1 hfacts
    simp only [Prod.mk.injEq] at heq
    obtain ⟨hc₀, hc₁, haddr⟩ := heq
    refine ⟨s', hs', hc₀, hc₁, haddr, fun hlaid => ?_⟩
    have h₃ := hlaid.instruction (show s'.children 0 = [] ++ 1 :: [] from hc₀)
      (show s'.children 1 = [] ++ 3 :: [4] from hc₁)
    rw [haddr, List.flatMap_nil, List.append_nil, Heap.sum_nil] at h₃
    exact absurd h₃ (by decide)

end Egalito.Mutator
