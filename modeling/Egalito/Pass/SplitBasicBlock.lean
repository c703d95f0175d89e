import Egalito.Mutator.SplitBlock
/-!
# `SplitBasicBlock`

`pass/splitbasicblock.cpp`. Instructions that the function's links and the
entries of its jump tables point to become the first of their blocks.
-/

namespace Egalito.Mutator

open Lib ChunkMutator

/-! ## The pass -/

/-- A link with its target; only a `NormalLink` is followed. -/
inductive SplitLink
  | normal (target : Option ChunkId)
  | other (target : Option ChunkId)

/-- The link of an instruction, by the class of its semantic. -/
inductive SplitSemantic
  | linkedInstruction (link : Option SplitLink)
  | controlFlowInstruction (link : Option SplitLink)
  | other (link : Option SplitLink)

structure SplitTable where
  function : ChunkId
  entries : List (Option SplitLink)

/-- The semantics of the instructions, and the jump tables of the module if it has a list of them. -/
structure SplitInput where
  semantic : ChunkId → SplitSemantic
  jumpTableList : Option (List SplitTable)

def normalTarget : Option SplitLink → Option ChunkId
  | some (.normal target) => target
  | _ => none

def considerSplittingFor (h : Heap) (f : ChunkId) (splitPoints : List ChunkId) (link : Option SplitLink) :
    Option (List ChunkId) :=
  match normalTarget link with
  | none => some splitPoints
  | some target =>
    if h.kind target ≠ .instruction then some splitPoints
    else do
      let block ← h.parent target
      if h.parent block ≠ some f then some splitPoints
      else if h.kind block ≠ .block then none
      else do
        let first ← (h.children block).head?
        if first = target then some splitPoints else some (splitPoints.insert target)

/-- The links that the pass looks at, in its order. -/
def SplitInput.links (input : SplitInput) (h : Heap) (f : ChunkId) : List (Option SplitLink) :=
  ((h.instructions f).filterMap fun instr =>
    match input.semantic instr with
    | .linkedInstruction link | .controlFlowInstruction link => some link
    | .other _ => none) ++
  ((input.jumpTableList.getD []).filter fun jt => jt.function = f).flatMap (·.entries)

def findSplitPoints (input : SplitInput) (h : Heap) (f : ChunkId) : Option (List ChunkId) :=
  (input.links h f).foldlM (considerSplittingFor h f) []

/-- The set is ordered by the pointers to the instructions and gone through from its end. -/
def splitBasicBlock (env : Env) (pointer : ChunkId → Nat) (newBlocks : Nat → ChunkId) (input : SplitInput) (f : ChunkId)
    (s : State) : Option State := do
  let splitPoints ← findSplitPoints input s.toHeap f
  let s ← splitAll env f newBlocks (splitPoints.mergeSort fun x y => pointer y ≤ pointer x) 0 s
  (Step.destroy f).run env s

/-! ## The split points -/

section Points

variable {h : Heap} {f x : ChunkId} {input : SplitInput} {link : Option SplitLink} {points : List ChunkId}

def SplitInput.targets (input : SplitInput) (h : Heap) (f : ChunkId) : List ChunkId :=
  (input.links h f).filterMap normalTarget

/-- An instruction that is linked to is in a block, and the block is in the function if it points to it. -/
def Settled (h : Heap) (f t : ChunkId) : Prop :=
  h.kind t = .instruction → ∃ b, t ∈ h.children b ∧ (h.parent b = some f → b ∈ h.children f)

theorem starts_iff (ho : h.Owned) {b : ChunkId} (hb : b ∈ h.children f) (hx : x ∈ h.children b) :
    h.Starts f x ↔ (h.children b).head? = some x := by
  constructor
  · rintro ⟨d, -, hd⟩
    rwa [ho.unique hx (List.mem_of_mem_head? hd)]
  · exact fun hhead => ⟨b, hb, hhead⟩

theorem considerSplittingFor_spec (ho : h.Owned) (hf : h.kind f = .function)
    (hsettled : ∀ t, normalTarget link = some t → Settled h f t) :
    ∃ points', considerSplittingFor h f points link = some points' ∧
      ∀ x, x ∈ points' ↔ x ∈ points ∨ normalTarget link = some x ∧ x ∈ h.instructions f ∧ ¬ h.Starts f x := by
  rw [considerSplittingFor]
  cases hlink : normalTarget link with
  | none => exact ⟨points, rfl, by simp⟩
  | some t =>
    have hinstr : t ∈ h.instructions f → h.kind t = .instruction := fun ht => by
      obtain ⟨b, hb, ht⟩ := List.mem_flatMap.1 ht
      exact (kinds_of_split ho hb ht).2.2
    dsimp only
    split
    · rename_i hkind
      refine ⟨points, rfl, fun x => (or_iff_left ?_).symm⟩
      rintro ⟨hx, hmem, -⟩
      cases hx
      exact hkind (hinstr hmem)
    · rename_i hkind
      obtain ⟨block, ht, hparent⟩ := hsettled t hlink (not_not.1 hkind)
      rw [ho.parent ht, Option.bind_eq_bind, Option.bind_some]
      split
      · rename_i hother
        refine ⟨points, rfl, fun x => (or_iff_left ?_).symm⟩
        rintro ⟨hx, hmem, -⟩
        cases hx
        obtain ⟨d, hd, htd⟩ := List.mem_flatMap.1 hmem
        exact hother (ho.unique ht htd ▸ ho.parent hd)
      · rename_i hself
        have hb := hparent (not_not.1 hself)
        have hblock := (kinds_of_split ho hb ht).2.1
        rw [if_neg (not_not.2 hblock)]
        obtain ⟨first, rest, hcons⟩ := List.exists_cons_of_ne_nil (List.ne_nil_of_mem ht)
        have hfirst : (h.children block).head? = some first := by rw [hcons, List.head?_cons]
        have hmem : t ∈ h.instructions f := List.mem_flatMap.2 ⟨block, hb, ht⟩
        have hstarts : h.Starts f t ↔ first = t := by rw [starts_iff ho hb ht, hfirst, Option.some.injEq]
        rw [hfirst, Option.bind_some]
        split
        · rename_i he
          refine ⟨points, rfl, fun x => (or_iff_left ?_).symm⟩
          rintro ⟨hx, -, hnot⟩
          cases hx
          exact hnot (hstarts.2 he)
        · rename_i hne
          refine ⟨_, rfl, fun x => ?_⟩
          rw [List.mem_insert_iff, Option.some.injEq, or_comm]
          refine or_congr_right ⟨?_, fun hx => hx.1.symm⟩
          rintro rfl
          exact ⟨rfl, hmem, fun hs => hne (hstarts.1 hs)⟩

theorem findSplitPoints_spec (ho : h.Owned) (hf : h.kind f = .function) (hsettled : ∀ t ∈ input.targets h f, Settled h f t) :
    ∃ points, findSplitPoints input h f = some points ∧
      ∀ x, x ∈ points ↔ x ∈ input.targets h f ∧ x ∈ h.instructions f ∧ ¬ h.Starts f x := by
  refine foldlM_total_done
    (fun done points => ∀ x, x ∈ points ↔ x ∈ done.filterMap normalTarget ∧ x ∈ h.instructions f ∧ ¬ h.Starts f x)
    (fun done link rest points hsplit hpoints => ?_) (by simp)
  · have hlink : ∀ t, normalTarget link = some t → Settled h f t := fun t ht =>
      hsettled t (List.mem_filterMap.2 ⟨link, by simp [hsplit], ht⟩)
    obtain ⟨points', hstep, hpoints'⟩ := considerSplittingFor_spec ho hf hlink
    refine ⟨points', hstep, fun x => ?_⟩
    rw [hpoints', hpoints, List.filterMap_append, List.mem_append]
    cases hn : normalTarget link <;> simp [hn]
    grind

theorem SplitInput.links_congr {h' : Heap} (hi : h'.instructions f = h.instructions f) :
    input.links h' f = input.links h f := by
  unfold SplitInput.links
  rw [hi]

theorem Refined.settled {h' : Heap} {t : ChunkId} (hr : Refined h h' f points) (ho : h.Owned) (hf : h.kind f = .function)
    (ht : Settled h f t) : Settled h' f t := by
  intro hkind
  have hkind := hr.kind t hkind
  obtain ⟨b, hb, hparent⟩ := ht hkind
  by_cases hbf : b ∈ h.children f
  · have hmem : t ∈ h'.instructions f := by
      rw [hr.instructions]
      exact List.mem_flatMap.2 ⟨b, hbf, hb⟩
    obtain ⟨d, hd, htd⟩ := List.mem_flatMap.1 hmem
    exact ⟨d, htd, fun _ => hd⟩
  · have hfits := ho.fits hb
    rw [hkind] at hfits
    have hblock : h.kind b = .block := by cases hk : h.kind b <;> simp_all [Kind.fits]
    have hne : b ≠ f := by
      rintro rfl
      rw [hf] at hblock
      cases hblock
    obtain ⟨hchildren, -, hsame⟩ := hr.outside b (List.ne_nil_of_mem hb) hne hbf
    refine ⟨b, hchildren ▸ hb, fun hpb => absurd (hparent ?_) hbf⟩
    rwa [← hsame hblock]

end Points

/-! ## Sizes and addresses -/

section Sizes

variable {env : Env} {s s' : State} {f x : ChunkId} {v : Address} {P Q : List ChunkId}

theorem Heap.Measured.size_function {h : Heap} (hm : h.Measured f) : h.size f = h.sum (h.instructions f) := by
  rw [hm.function, hm.sum_blocks fun _ hb => hb, Heap.instructions]

theorem Heap.nodup_instructions {h : Heap} (ho : h.Owned) : (h.instructions f).Nodup := by
  refine List.nodup_flatMap.2 ⟨fun b _ => ho.nodup b, (ho.nodup f).pairwise_of_forall_ne ?_⟩
  intro b _ c _ hne x hb hc
  exact hne (ho.unique hb hc)

/-- The address of an instruction is the sum of the sizes of those before it. -/
theorem State.LaidOut.address_at (hl : s.LaidOut env f v) (ho : s.Owned) (hsplit : s.instructions f = P ++ x :: Q) :
    s.address env x = some (v + BitVec.ofNat 64 (s.sum P)) := by
  have hx : x ∈ s.instructions f := by simp [hsplit]
  obtain ⟨b, hb, hx⟩ := List.mem_flatMap.1 hx
  obtain ⟨l, r, hblocks⟩ := List.append_of_mem hb
  obtain ⟨l', r', hcut⟩ := List.append_of_mem hx
  have hnd := Heap.nodup_instructions (f := f) ho
  have heq : P = l.flatMap s.children ++ l' := by
    have hall : P ++ x :: Q = (l.flatMap s.children ++ l') ++ x :: (r' ++ r.flatMap s.children) := by
      rw [← hsplit, Heap.instructions, hblocks, List.flatMap_append, List.flatMap_cons, hcut]
      simp
    have hnd₁ := hsplit ▸ hnd
    have hnd₂ := hall ▸ hnd₁
    exact (List.append_cons_inj_of_notMem (by grind) (by grind)).1 hall |>.1
  rw [heq]
  exact hl.instruction hblocks hcut

theorem address_congr (hl : s.LaidOut env f v) (hl' : s'.LaidOut env f v) (ho : s.Owned) (ho' : s'.Owned)
    (hi : s'.instructions f = s.instructions f) (hsize : ∀ x ∈ s.instructions f, s'.size x = s.size x)
    (hx : x ∈ s.instructions f) : s'.address env x = s.address env x := by
  obtain ⟨P, Q, hsplit⟩ := List.append_of_mem hx
  rw [hl.address_at ho hsplit, hl'.address_at ho' (hi.trans hsplit), Heap.sum_congr fun y hy => hsize y (by simp [hsplit, hy])]

/-- The destructor leaves positions that it does not change again. -/
theorem destroy_idempotent (hmode : env.mode = .offset) (hfuel : 3 ≤ env.fuel) (hp : s.Positioned f v) :
    ∃ ps, (Step.destroy f).run env s = some { s with pos := ps } ∧ ({ s with pos := ps } : State).Positioned f v ∧
      ({ s with pos := ps } : State).LaidOut env f v ∧
      (Step.destroy f).run env { s with pos := ps } = some { s with pos := ps } := by
  obtain ⟨ps, hrun, hf, hb, hframe⟩ := destroy_laid hmode hfuel hp (.inl rfl)
  have hp₁ := hp.laid hf hb hframe
  obtain ⟨ps', hrun', hf', hb', hframe'⟩ := destroy_laid hmode hfuel hp₁ (.inl rfl)
  refine ⟨ps, hrun, hp₁, laidOut_of_laid hfuel hp₁ hf hb, ?_⟩
  have hsame : ps' = ps := by
    funext y
    by_cases hy : y ∈ s.children f
    · obtain ⟨l, r, hsplit⟩ := List.append_of_mem hy
      exact (hf' l y r hsplit).trans (hf l y r hsplit).symm
    · by_cases hin : ∃ b ∈ s.children f, y ∈ s.children b
      · obtain ⟨b, hmem, hy⟩ := hin
        obtain ⟨l, r, hsplit⟩ := List.append_of_mem hy
        exact (hb' b hmem l y r hsplit).trans (hb b hmem l y r hsplit).symm
      · push Not at hin
        exact hframe' y hy hin
  rw [hrun', hsame]

end Sizes

/-! ## The whole pass -/

section Whole

variable {env : Env} {s : State} {f : ChunkId} {v : Address} {input : SplitInput} {pointer : ChunkId → Nat}
  {newBlocks : Nat → ChunkId}

/-- What the pass keeps of a function: each block is cut into pieces, with the instructions that it had. -/
structure Preserved (env : Env) (s s' : State) (f : ChunkId) : Prop where
  instructions : s'.instructions f = s.instructions f
  instruction_size : ∀ x ∈ s.instructions f, s'.size x = s.size x
  address : ∀ x ∈ s.instructions f, s'.address env x = s.address env x
  function_size : s'.size f = s.size f
  pieces : ∃ pieces : ChunkId → List ChunkId, s'.children f = (s.children f).flatMap pieces ∧
    ∀ d ∈ s.children f, (pieces d).flatMap s'.children = s.children d ∧ s'.sum (pieces d) = s.size d

theorem splitBasicBlock_spec (pointer : ChunkId → Nat) (hmode : env.mode = .offset) (hfuel : 3 ≤ env.fuel)
    (hp : s.Positioned f v) (hlinked : s.Linked) (hl : s.LaidOut env f v) (hnew : Allocates s.toHeap newBlocks 0)
    (hsettled : ∀ t ∈ input.targets s.toHeap f, Settled s.toHeap f t) :
    ∃ s', splitBasicBlock env pointer newBlocks input f s = some s' ∧ Preserved env s s' f ∧
      (∀ t ∈ input.targets s.toHeap f, t ∈ s.instructions f → s'.Starts f t) ∧
      ∀ pointer' newBlocks', splitBasicBlock env pointer' newBlocks' input f s' = some s' := by
  have hm := hp.measured
  obtain ⟨points, hpoints, hmem⟩ := findSplitPoints_spec hm.owned hm.kind hsettled
  set order := points.mergeSort fun x y => pointer y ≤ pointer x
  have horder : ∀ x, x ∈ order ↔ x ∈ points := fun x => List.mem_mergeSort
  obtain ⟨s₁, hrun, hp₁, -, hr⟩ := splitAll_refined hmode hfuel hp hlinked
    (fun x hx => ((hmem x).1 ((horder x).1 hx)).2.1) hnew
  obtain ⟨ps, hdestroy, hp₂, hl₂, hagain⟩ := destroy_idempotent hmode hfuel hp₁
  have hm₁ := hp₁.measured
  have hstarts : ∀ t ∈ input.targets s.toHeap f, t ∈ s.instructions f → s₁.Starts f t := fun t ht hx => by
    rw [hr.starts, horder, hmem]
    tauto
  refine ⟨{ s₁ with pos := ps }, ?_, ⟨hr.instructions, hr.size, fun x => ?_, ?_, ?_⟩, hstarts, fun pointer' newBlocks' => ?_⟩
  · rw [splitBasicBlock, hpoints, Option.bind_eq_bind, Option.bind_some, hrun, Option.bind_eq_bind, Option.bind_some]
    exact hdestroy
  · exact address_congr hl hl₂ hm.owned hm₁.owned hr.instructions hr.size
  · change s₁.size f = s.size f
    rw [hm₁.size_function, hm.size_function, hr.instructions, Heap.sum_congr hr.size]
  · obtain ⟨pieces, hf, hpieces⟩ := hr.pieces
    refine ⟨pieces, hf, fun d hd => ⟨hpieces d hd, ?_⟩⟩
    have hin : ∀ e ∈ pieces d, e ∈ s₁.children f := fun e he => by
      rw [hf]
      exact List.mem_flatMap.2 ⟨d, hd, he⟩
    change s₁.sum (pieces d) = s.size d
    rw [hm₁.sum_blocks hin, hpieces d hd, hm.block d hd]
    exact Heap.sum_congr fun x hx => hr.size x (List.mem_flatMap.2 ⟨d, hd, hx⟩)
  · have hlinks : input.targets s₁.toHeap f = input.targets s.toHeap f := by
      rw [SplitInput.targets, SplitInput.targets, SplitInput.links_congr hr.instructions]
    obtain ⟨points', hpoints', hmem'⟩ := findSplitPoints_spec hm₁.owned hm₁.kind fun t (ht : t ∈ input.targets _ f) =>
      hr.settled hm.owned hm.kind (hsettled t (hlinks ▸ ht))
    have hnil : points' = [] := List.eq_nil_iff_forall_not_mem.2 fun x hx => by
      obtain ⟨ht, hx, hnot⟩ := (hmem' x).1 hx
      exact hnot (hstarts x (hlinks ▸ ht) (hr.instructions ▸ hx))
    subst hnil
    change (findSplitPoints input s₁.toHeap f).bind _ = _
    rw [hpoints', Option.bind_some, List.mergeSort_nil, splitAll, Option.bind_eq_bind, Option.bind_some]
    exact hagain

end Whole

/-! ### A block of three instructions, and a link to the second of them -/

theorem staleState_mem {c x : ChunkId} (hx : x ∈ staleState.children c) :
    (c = 0 ∧ x = 1) ∨ (c = 1 ∧ (x = 2 ∨ x = 3 ∨ x = 4)) := by
  simp only [staleState] at hx
  split_ifs at hx <;> simp_all

theorem staleState_linked : staleState.Linked := by
  refine ⟨staleState_positioned.measured.owned, staleState_positioned.threaded, fun c x hx => ?_⟩
  simp only [staleState] at hx
  split_ifs at hx <;> simp at hx <;> subst hx <;> rfl

theorem staleState_laidOut : staleState.LaidOut sampleEnv 0 0x1000 := by
  refine laidOut_of_laid (by decide) staleState_positioned ?_ fun b hb => ?_
  · intro l x r hsplit
    rcases l with _ | ⟨_, _ | ⟨_, _⟩⟩ <;> simp [staleState] at hsplit
    obtain ⟨rfl, rfl⟩ := hsplit
    rfl
  · obtain rfl : b = 1 := by simpa [staleState] using hb
    intro l x r hsplit
    rcases l with _ | ⟨_, _ | ⟨_, _ | ⟨_, _⟩⟩⟩ <;> simp [staleState] at hsplit
    · obtain ⟨rfl, -⟩ := hsplit
      rfl
    · obtain ⟨rfl, rfl, -⟩ := hsplit
      rfl
    · obtain ⟨rfl, rfl, rfl, -⟩ := hsplit
      rfl

theorem staleState_allocates : Allocates staleState.toHeap (· + 10) 0 := by
  refine ⟨add_left_injective 10, fun j _ => ⟨fun c hc => ?_, ?_⟩⟩
  · have hmem : (c = 0 ∧ j + 10 = 1) ∨ (c = 1 ∧ (j + 10 = 2 ∨ j + 10 = 3 ∨ j + 10 = 4)) := staleState_mem hc
    omega
  · simp [staleState]

/-- The last instruction jumps to the second one, which also is in a jump table. -/
def jumpInput : SplitInput where
  semantic c := if c = 4 then .controlFlowInstruction (some (.normal (some 3))) else .other none
  jumpTableList := some [⟨0, [some (.normal (some 3))]⟩]

theorem splitBasicBlock_spec_stale :
    ∃ s', splitBasicBlock sampleEnv id (· + 10) jumpInput 0 staleState = some s' ∧ Preserved sampleEnv staleState s' 0 ∧
      (∀ t ∈ jumpInput.targets staleState.toHeap 0, t ∈ staleState.instructions 0 → s'.Starts 0 t) ∧
      ∀ pointer' newBlocks', splitBasicBlock sampleEnv pointer' newBlocks' jumpInput 0 s' = some s' := by
  refine splitBasicBlock_spec id rfl (by decide) staleState_positioned staleState_linked staleState_laidOut
    staleState_allocates fun t ht => ?_
  obtain rfl : t = 3 := by simpa [SplitInput.targets, SplitInput.links, Heap.instructions, jumpInput, staleState, normalTarget] using ht
  exact fun _ => ⟨1, by simp [staleState], fun _ => by simp [staleState]⟩

/-- The second instruction is the target of a link that is no `NormalLink`. -/
def offsetInput : SplitInput where
  semantic c := if c = 4 then .controlFlowInstruction (some (.other (some 3))) else .other none
  jumpTableList := none

/-- The target stays in the middle of its block. -/
theorem other_link_is_not_followed : staleState.Positioned 0 0x1000 ∧ staleState.Linked ∧
    staleState.LaidOut sampleEnv 0 0x1000 ∧ Allocates staleState.toHeap (· + 10) 0 ∧
    (4 ∈ staleState.instructions 0 ∧ offsetInput.semantic 4 = .controlFlowInstruction (some (.other (some 3)))) ∧
    ∃ s', splitBasicBlock sampleEnv id (· + 10) offsetInput 0 staleState = some s' ∧ 3 ∈ s'.instructions 0 ∧
      ¬ s'.Starts 0 3 := by
  refine ⟨staleState_positioned, staleState_linked, staleState_laidOut, staleState_allocates,
    ⟨by simp [Heap.instructions, staleState], by simp [offsetInput]⟩, ?_⟩
  have hpoints : findSplitPoints offsetInput staleState.toHeap 0 = some [] := by
    simp [findSplitPoints, SplitInput.links, Heap.instructions, offsetInput, staleState, considerSplittingFor, normalTarget]
  obtain ⟨ps, hrun, -⟩ := destroy_idempotent (show sampleEnv.mode = .offset from rfl) (by decide) staleState_positioned
  refine ⟨{ staleState with pos := ps }, ?_, by simp [Heap.instructions, staleState], ?_⟩
  · rw [splitBasicBlock, hpoints, Option.bind_eq_bind, Option.bind_some, List.mergeSort_nil, splitAll, Option.bind_eq_bind,
      Option.bind_some]
    exact hrun
  · rintro ⟨d, hd, hhead⟩
    obtain rfl : d = 1 := by simpa [staleState] using hd
    simp [staleState] at hhead

end Egalito.Mutator
