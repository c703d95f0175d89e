import Egalito.Mutator.Links
/-!
# Instructions and their semantics

The insertions of instructions in `operation/mutator.cpp`, on what the others
leave out: the semantic objects of the instructions and the pointers from a
semantic back to its instruction. The children are those of the full operations.
-/

namespace Egalito.Mutator

abbrev SemanticId := Nat

/-- The `dynamic_cast`s to `LinkedInstructionBase` and `ControlFlowInstructionBase`. -/
structure Casts where
  linked : SemanticId → Bool
  controlFlow : SemanticId → Bool

/-- The children of a block, the semantic of each instruction, and the pointers of semantics:
`instruction` of a `LinkedInstructionBase`, `source` of a `ControlFlowInstructionBase`. -/
structure Code where
  children : List ChunkId
  semantic : ChunkId → SemanticId
  instruction : SemanticId → Option ChunkId
  source : SemanticId → Option ChunkId

namespace Code

variable (casts : Casts)

/-! ## Insertions -/

/-- The index behind the insert point; the index of a child that is not there is -1. -/
def insertAfter (insertPoint : Option ChunkId) (newChunk : ChunkId) (code : Code) : Code :=
  let index := match insertPoint with
    | some point => match code.children.idxOf? point with
      | some index => index + 1
      | none => 0
    | none => 0
  { code with children := code.children.insertIdx index newChunk }

def insertBefore (insertPoint : Option ChunkId) (newChunk : ChunkId) (code : Code) : Option Code :=
  match insertPoint with
  | none => some { code with children := code.children ++ [newChunk] }
  | some point => do
    let index ← code.children.idxOf? point
    return { code with children := code.children.insertIdx index newChunk }

/-- A pointer is set where the cast of the semantic succeeds. -/
def setPointer (cast : SemanticId → Bool) (sem : SemanticId) (holder : ChunkId) (pointer : SemanticId → Option ChunkId) :
    SemanticId → Option ChunkId :=
  if cast sem then Function.update pointer sem (some holder) else pointer

/-- `setInstruction` and `setSource` of a semantic that is put into an instruction. -/
def setHolder (sem : SemanticId) (holder : ChunkId) (code : Code) : Code :=
  { code with
    instruction := setPointer casts.linked sem holder code.instruction
    source := setPointer casts.controlFlow sem holder code.source }

def insertBeforeJumpTo (insertPoint : Option ChunkId) (newChunk : ChunkId) (code : Code) : Option Code :=
  match insertPoint with
  | none => code.insertBefore none newChunk
  | some point =>
    let code := code.insertAfter (some point) newChunk
    let sem1 := code.semantic point
    let sem2 := code.semantic newChunk
    let code := { code with semantic := Function.update (Function.update code.semantic point sem2) newChunk sem1 }
    some ((code.setHolder casts sem1 newChunk).setHolder casts sem2 point)

def insertAllAfter : Option ChunkId → List ChunkId → Code → Code
  | _, [], code => code
  | insertPoint, new :: toBeInserted, code => insertAllAfter (some new) toBeInserted (code.insertAfter insertPoint new)

def insertAllBefore (insertPoint : Option ChunkId) (toBeInserted : List ChunkId) (beforeJumpTo : Bool) (code : Code) :
    Option Code :=
  if beforeJumpTo then toBeInserted.reverse.foldlM (fun code new => code.insertBeforeJumpTo casts insertPoint new) code
  else toBeInserted.foldlM (fun code new => code.insertBefore insertPoint new) code

/-! ## What the block says -/

/-- The semantics in the order of the instructions. -/
def sequence (code : Code) : List SemanticId := code.children.map code.semantic

/-- The pointer of a kind that the semantic of an instruction has, if it has one, is to that instruction. -/
def Designates (cast : SemanticId → Bool) (pointer : SemanticId → Option ChunkId) (semantic : ChunkId → SemanticId)
    (x : ChunkId) : Prop :=
  cast (semantic x) = true → pointer (semantic x) = some x

def Designated (code : Code) (x : ChunkId) : Prop :=
  Designates casts.linked code.instruction code.semantic x ∧ Designates casts.controlFlow code.source code.semantic x

variable {casts} {code code' : Code} {A B news : List ChunkId} {point : Option ChunkId} {p x : ChunkId}

/-! ## In front of a point and behind it -/

theorem insertAfter_eq (hsplit : code.children = A ++ B) (hpoint : A.getLast? = point) (hnodup : A.Nodup) :
    code.insertAfter point x = { code with children := A ++ x :: B } := by
  unfold insertAfter
  cases hpoint
  cases A using List.reverseRecOn with
  | nil => simp [hsplit]
  | append_singleton A a =>
    have ha : a ∉ A := fun h => (List.nodup_append.1 hnodup).2.2 a h a (by simp) rfl
    have hlist : code.children = A ++ a :: B := by rw [hsplit, List.append_assoc]; rfl
    have hinsert : (A ++ a :: B).insertIdx (A.length + 1) x = A ++ [a] ++ x :: B := by
      have := Lib.insertIdx_middle (a := A ++ [a]) (b := B) (x := x)
      simpa using this
    rw [List.getLast?_concat, hlist]
    dsimp only
    rw [Lib.idxOf?_middle ha]
    dsimp only
    rw [hinsert]

theorem insertBefore_eq (hsplit : code.children = A ++ B) (hpoint : B.head? = point) (hnodup : (A ++ B).Nodup) :
    code.insertBefore point x = some { code with children := A ++ x :: B } := by
  unfold insertBefore
  cases hpoint
  cases B with
  | nil => simp [hsplit]
  | cons b B =>
    have hb : b ∉ A := fun h => (List.nodup_append.1 hnodup).2.2 b h b (by simp) rfl
    rw [hsplit, List.head?_cons]
    dsimp only
    rw [Lib.idxOf?_middle hb, Option.bind_eq_bind, Option.bind_some, Lib.insertIdx_middle]
    rfl

theorem insertAllAfter_eq (hsplit : code.children = A ++ B) (hpoint : A.getLast? = point) (hnodup : (A ++ news).Nodup) :
    code.insertAllAfter point news = { code with children := A ++ (news ++ B) } := by
  induction news generalizing code A point with
  | nil => rw [insertAllAfter, List.nil_append, ← hsplit]
  | cons new news ih =>
    have hsplit' : (code.insertAfter point new).children = A ++ [new] ++ B := by
      rw [insertAfter_eq hsplit hpoint (List.nodup_append.1 hnodup).1]
      simp
    rw [insertAllAfter, ih hsplit' List.getLast?_concat (by simpa using hnodup),
      insertAfter_eq hsplit hpoint (List.nodup_append.1 hnodup).1]
    simp

theorem insertAllBefore_eq (hsplit : code.children = A ++ B) (hpoint : B.head? = point)
    (hnodup : (A ++ (news ++ B)).Nodup) :
    code.insertAllBefore casts point news false = some { code with children := A ++ (news ++ B) } := by
  rw [insertAllBefore, if_neg Bool.false_ne_true]
  induction news generalizing code A with
  | nil => rw [List.nil_append, ← hsplit]; rfl
  | cons new news ih =>
    have hAB : (A ++ B).Nodup :=
      hnodup.sublist (List.Sublist.append_left (List.sublist_append_right (new :: news) B) A)
    rw [List.foldlM_cons, insertBefore_eq hsplit hpoint hAB, Option.bind_eq_bind, Option.bind_some,
      ih (A := A ++ [new]) (by simp) (by simpa using hnodup)]
    simp

/-! ## Exchanged semantics -/

/-- Two instructions exchange their semantics, and the pointers of a kind follow. -/
theorem designates_swap {cast : SemanticId → Bool} {pointer : SemanticId → Option ChunkId} {semantic : ChunkId → SemanticId}
    {X : List ChunkId} (h : ∀ y ∈ X, Designates cast pointer semantic y) (hp : p ∈ X) (hx : x ∈ X) (hne : p ≠ x) :
    ∀ y ∈ X, Designates cast (setPointer cast (semantic x) p (setPointer cast (semantic p) x pointer))
      (Function.update (Function.update semantic p (semantic x)) x (semantic p)) y := by
  -- a semantic with a pointer is in one instruction only
  have hone : ∀ y ∈ X, ∀ z ∈ X, y ≠ z → cast (semantic y) = true → semantic y ≠ semantic z := by
    intro y hy z hz hyz hcast heq
    have hz := h z hz (heq ▸ hcast)
    rw [← heq, h y hy hcast] at hz
    exact hyz (Option.some.inj hz)
  intro y hy hcast
  by_cases hyx : y = x
  · subst hyx
    rw [Function.update_self] at hcast ⊢
    have hsem := hone p hp y hx hne hcast
    rw [setPointer, setPointer, if_pos hcast]
    split
    · rw [Function.update_of_ne hsem, Function.update_self]
    · exact Function.update_self ..
  · rw [Function.update_of_ne hyx] at hcast ⊢
    by_cases hyp : y = p
    · subst hyp
      rw [Function.update_self] at hcast ⊢
      rw [setPointer, if_pos hcast, Function.update_self]
    · rw [Function.update_of_ne hyp] at hcast ⊢
      have hkeep : ∀ z ∈ X, y ≠ z → ∀ holder pointer,
          setPointer cast (semantic z) holder pointer (semantic y) = pointer (semantic y) := by
        intro z hz hyz holder pointer
        rw [setPointer]
        split
        · exact Function.update_of_ne (hone y hy z hz hyz hcast) _ _
        · rfl
      rw [hkeep x hx hyx, hkeep p hp hyp, h y hy hcast]

/-! ## In front of jumps to a point -/

/-- The new code in the instruction `p` and those behind it, and the semantic that `p` had at the end. -/
structure Carries (code code' : Code) (A : List ChunkId) (p : ChunkId) (news B : List ChunkId) : Prop where
  children : code'.children = A ++ p :: (news ++ B)
  moved : (p :: news).map code'.semantic = news.map code.semantic ++ [code.semantic p]
  same : ∀ y, y ≠ p → y ∉ news → code'.semantic y = code.semantic y

variable {X : List ChunkId}

/-- One turn puts the new semantic into `p` and what `p` had into the new instruction. -/
theorem insertBeforeJumpTo_carries (h : Carries code code' A p news B) (hnodup : (A ++ p :: (x :: (news ++ B))).Nodup)
    (hX : ∀ y ∈ X, code'.Designated casts y) (hp : p ∈ X) (hx : x ∈ X) :
    ∃ code'', code'.insertBeforeJumpTo casts (some p) x = some code'' ∧ Carries code code'' A p (x :: news) B ∧
      ∀ y ∈ X, code''.Designated casts y := by
  have hA : (A ++ [p]).Nodup := by
    refine hnodup.sublist (List.Sublist.append_left ?_ A)
    exact List.singleton_sublist.2 List.mem_cons_self
  have hpx : p ≠ x := fun he => (List.nodup_cons.1 (List.nodup_append.1 hnodup).2.1).1 (he ▸ List.mem_cons_self)
  have hxnews : x ∉ news := fun hmem =>
    (List.nodup_cons.1 (List.nodup_cons.1 (List.nodup_append.1 hnodup).2.1).2).1 (List.mem_append_left B hmem)
  have hpnews : p ∉ news := fun hmem => (List.nodup_cons.1 (List.nodup_append.1 hnodup).2.1).1 (by simp [hmem])
  have hplace : code'.insertAfter (some p) x = { code' with children := A ++ [p] ++ x :: (news ++ B) } :=
    insertAfter_eq (by rw [h.children]; simp) List.getLast?_concat hA
  refine ⟨_, rfl, ⟨?_, ?_, fun y hyp hy => ?_⟩, fun y hy => ?_⟩
  · simp only [setHolder, hplace]
    simp
  · simp only [setHolder, hplace]
    have hmoved := h.moved
    have hsame := h.same x hpx.symm hxnews
    have hrest : news.map (Function.update (Function.update code'.semantic p (code'.semantic x)) x (code'.semantic p)) =
        news.map code'.semantic := by
      refine List.map_congr_left fun y hy => ?_
      have hyx : y ≠ x := fun he => hxnews (he ▸ hy)
      have hyp : y ≠ p := fun he => hpnews (he ▸ hy)
      rw [Function.update_of_ne hyx, Function.update_of_ne hyp]
    rw [List.map_cons, List.map_cons, Function.update_of_ne hpx, Function.update_self, Function.update_self, hrest,
      ← List.map_cons, hmoved, hsame, List.map_cons, List.cons_append]
  · simp only [setHolder, hplace]
    rw [List.mem_cons, not_or] at hy
    rw [Function.update_of_ne hy.1, Function.update_of_ne hyp, h.same y hyp hy.2]
  · simp only [Designated, setHolder, hplace]
    exact ⟨designates_swap (fun z hz => (hX z hz).1) hp hx hpx y hy, designates_swap (fun z hz => (hX z hz).2) hp hx hpx y hy⟩

/-- The vector is inserted from its end. -/
theorem insertAllBefore_carries (hsplit : code.children = A ++ p :: B) (hnodup : (A ++ p :: (news ++ B)).Nodup)
    (hX : ∀ y ∈ X, code.Designated casts y) (hp : p ∈ X) (hnews : ∀ y ∈ news, y ∈ X) :
    ∃ code', code.insertAllBefore casts (some p) news true = some code' ∧ Carries code code' A p news B ∧
      ∀ y ∈ X, code'.Designated casts y := by
  rw [insertAllBefore, if_pos rfl]
  induction news with
  | nil => exact ⟨code, rfl, ⟨hsplit, by simp, fun _ _ _ => rfl⟩, hX⟩
  | cons x news ih =>
    have hnodup' : (A ++ p :: (news ++ B)).Nodup :=
      hnodup.sublist (List.Sublist.append_left (List.Sublist.cons_cons p (List.sublist_cons_self x _)) A)
    obtain ⟨code', hrun, hcarries, hX'⟩ := ih hnodup' fun y hy => hnews y (List.mem_cons_of_mem x hy)
    obtain ⟨code'', hstep, h⟩ := insertBeforeJumpTo_carries hcarries hnodup hX' hp (hnews x List.mem_cons_self)
    refine ⟨code'', ?_, h⟩
    rw [List.reverse_cons, List.foldlM_append, hrun, Option.bind_eq_bind, Option.bind_some, List.foldlM_cons, hstep]
    rfl

theorem Carries.sequence (h : Carries code code' A p news B) (hnodup : (A ++ p :: (news ++ B)).Nodup) :
    code'.sequence = A.map code.semantic ++ (news.map code.semantic ++ (p :: B).map code.semantic) := by
  obtain ⟨-, hrest, hne⟩ := List.nodup_append.1 hnodup
  obtain ⟨hp, hrest⟩ := List.nodup_cons.1 hrest
  have hA : A.map code'.semantic = A.map code.semantic := List.map_congr_left fun y hy =>
    h.same y (hne y hy p List.mem_cons_self) fun hmem => hne y hy y (by simp [hmem]) rfl
  have hB : B.map code'.semantic = B.map code.semantic := List.map_congr_left fun y hy =>
    h.same y (fun he => hp (by rw [← he]; simp [hy])) fun hmem => (List.nodup_append.1 hrest).2.2 y hmem y hy rfl
  rw [Code.sequence, h.children, List.map_append, hA, ← List.cons_append, List.map_append, h.moved, hB]
  simp

/-! ## The vectors -/

/-- Where the sequence is said to be cut and the new semantics to be put. -/
def Inserted (code code' : Code) (A news B : List ChunkId) : Prop :=
  code'.sequence = A.map code.semantic ++ (news.map code.semantic ++ B.map code.semantic)

/-- A vector of new instructions is put behind its point, or in front of it; behind nothing is
the beginning, in front of nothing the end. Where jumps to the point are to come to the new
code, the instruction that was the point stays where it is and has the first of it. -/
theorem insertAll_sequence (code : Code) (news : List ChunkId) (hnodup : (code.children ++ news).Nodup)
    (hdesignated : ∀ y ∈ code.children ++ news, code.Designated casts y) :
    (∀ A B, code.children = A ++ B →
      Inserted code (code.insertAllAfter A.getLast? news) A news B ∧
        ∀ y ∈ code.children ++ news, (code.insertAllAfter A.getLast? news).Designated casts y) ∧
    (∀ A B, code.children = A ++ B → ∃ code', code.insertAllBefore casts B.head? news false = some code' ∧
      Inserted code code' A news B ∧ ∀ y ∈ code.children ++ news, code'.Designated casts y) ∧
    (∀ A p B, code.children = A ++ p :: B → ∃ code', code.insertAllBefore casts (some p) news true = some code' ∧
      Inserted code code' A news (p :: B) ∧ code'.children[A.length]? = some p ∧
      (∀ new ∈ news.head?, code'.semantic p = code.semantic new) ∧
      ∀ y ∈ code.children ++ news, code'.Designated casts y) := by
  have hperm : ∀ A B, code.children = A ++ B → (A ++ (news ++ B)).Nodup := by
    intro A B hsplit
    rw [hsplit, List.append_assoc] at hnodup
    exact (List.Perm.append_left A List.perm_append_comm).nodup_iff.1 hnodup
  refine ⟨fun A B hsplit => ?_, fun A B hsplit => ?_, fun A p B hsplit => ?_⟩
  · have hA : (A ++ news).Nodup := (hperm A B hsplit).sublist (by rw [← List.append_assoc]; exact List.sublist_append_left _ _)
    rw [insertAllAfter_eq hsplit rfl hA]
    exact ⟨by simp [Inserted, Code.sequence], hdesignated⟩
  · exact ⟨_, insertAllBefore_eq hsplit rfl (hperm A B hsplit), by simp [Inserted, Code.sequence], hdesignated⟩
  · have hnodup' : (A ++ p :: (news ++ B)).Nodup := by
      refine (List.Perm.append_left A ?_).nodup_iff.1 (hperm A (p :: B) hsplit)
      exact List.perm_middle
    obtain ⟨code', hrun, hcarries, hX⟩ := insertAllBefore_carries hsplit hnodup' hdesignated (by simp [hsplit])
      fun y hy => List.mem_append_right _ hy
    refine ⟨code', hrun, hcarries.sequence hnodup', by simp [hcarries.children], fun new hnew => ?_, hX⟩
    obtain ⟨rest, rfl⟩ : ∃ rest, news = new :: rest := by
      cases news with
      | nil => cases hnew
      | cons n rest => cases hnew; exact ⟨rest, rfl⟩
    have hmoved := hcarries.moved
    exact (List.cons.inj hmoved).1

/-- Two instructions, the second a call. -/
def sampleCode : Code := ⟨[0, 1], id, some, some⟩

def sampleCasts : Casts := ⟨fun _ => false, fun sem => sem = 1⟩

theorem insertAll_sequence_sample : ∃ code', sampleCode.insertAllBefore sampleCasts (some 1) [2, 3] true = some code' ∧
    Inserted sampleCode code' [0] [2, 3] [1] ∧ code'.semantic 1 = 2 ∧ code'.source 1 = some 3 := by
  have hdesignated : ∀ y ∈ sampleCode.children ++ [2, 3], sampleCode.Designated sampleCasts y :=
    fun y _ => ⟨fun _ => rfl, fun _ => rfl⟩
  obtain ⟨code', hrun, hinserted, -, hfirst, -⟩ := (insertAll_sequence sampleCode [2, 3] (by decide) hdesignated).2.2
    [0] 1 [] rfl
  refine ⟨code', hrun, hinserted, hfirst 2 rfl, ?_⟩
  obtain rfl := Option.some.inj hrun
  rfl

/-- Behind a null point is the beginning of the block, not its end. -/
theorem insertAllAfter_none : (sampleCode.insertAllAfter none [2]).sequence = [2, 0, 1] ∧
    ¬ Inserted sampleCode (sampleCode.insertAllAfter none [2]) sampleCode.children [2] [] := by
  unfold Inserted
  decide

end Code

/-! ## The children of the full operations -/

open ChunkMutator

section Refines

variable {env : Env} {s s' : State} {c x p : ChunkId} {A B news : List ChunkId}

theorem insertAfter_children (ho : s.Owned) (hx : s.Insertable c x) (hsplit : s.children c = A ++ B)
    (h : ChunkMutator.insertAfter env c A.getLast? x s = some s') : Placed s.toTree s'.toTree c A x B := by
  cases A using List.reverseRecOn with
  | nil =>
    have hp := insertAfter_none_placed hx.fits h
    rwa [hsplit] at hp
  | append_singleton A a =>
    rw [List.getLast?_concat] at h
    exact insertAfter_placed hx.fits ho (by rw [hsplit]; simp) h

theorem insertBefore_children (ho : s.Owned) (hx : s.Insertable c x) (hsplit : s.children c = A ++ B)
    (h : ChunkMutator.insertBefore env c B.head? x s = some s') : Placed s.toTree s'.toTree c A x B := by
  cases B with
  | nil =>
    have hp := append_placed hx.fits h
    rwa [hsplit, List.append_nil] at hp
  | cons b B => exact insertBefore_placed hx.fits ho hsplit h

theorem insertAllAfter_children (ho : s.Owned) (hnews : ∀ x ∈ news, s.Insertable c x) (hnodup : news.Nodup)
    (hsplit : s.children c = A ++ B) (h : ChunkMutator.insertAllAfter env c A.getLast? news s = some s') :
    s'.children c = A ++ (news ++ B) := by
  induction news generalizing s A with
  | nil =>
    cases h
    exact hsplit
  | cons x news ih =>
    obtain ⟨s₁, h₁, h⟩ := Option.bind_eq_some_iff.1 h
    have hx := hnews x List.mem_cons_self
    have hp := insertAfter_children ho hx hsplit h₁
    have hsplit₁ : s₁.children c = A ++ [x] ++ B := by simp [hp.children]
    rw [← List.getLast?_concat (l := A)] at h
    rw [ih (hp.owned ho hx.detached hx.fits) (hp.insertable_tail hnews hnodup) (List.nodup_cons.1 hnodup).2 hsplit₁ h]
    simp

theorem insertAllBefore_children (ho : s.Owned) (hnews : ∀ x ∈ news, s.Insertable c x) (hnodup : news.Nodup)
    (hsplit : s.children c = A ++ B) (h : ChunkMutator.insertAllBefore env c B.head? news false s = some s') :
    s'.children c = A ++ (news ++ B) := by
  rw [ChunkMutator.insertAllBefore, if_neg Bool.false_ne_true] at h
  induction news generalizing s A with
  | nil =>
    cases h
    exact hsplit
  | cons x news ih =>
    rw [List.foldlM_cons, Option.bind_eq_bind, Option.bind_eq_some_iff] at h
    obtain ⟨s₁, h₁, h⟩ := h
    have hx := hnews x List.mem_cons_self
    have hp := insertBefore_children ho hx hsplit h₁
    have hsplit₁ : s₁.children c = A ++ [x] ++ B := by simp [hp.children]
    rw [ih (hp.owned ho hx.detached hx.fits) (hp.insertable_tail hnews hnodup) (List.nodup_cons.1 hnodup).2 hsplit₁ h]
    simp

theorem insertAllBefore_jump_children (ho : s.Owned) (hnews : ∀ x ∈ news, s.Insertable c x) (hnodup : news.Nodup)
    (hsplit : s.children c = A ++ p :: B) (h : ChunkMutator.insertAllBefore env c (some p) news true s = some s') :
    s'.children c = A ++ p :: (news ++ B) ∧ s'.Owned ∧ ∀ y, s.Insertable c y → y ∉ news → s'.Insertable c y := by
  rw [ChunkMutator.insertAllBefore, if_pos rfl] at h
  induction news generalizing s' with
  | nil =>
    cases h
    exact ⟨hsplit, ho, fun y hy _ => hy⟩
  | cons x news ih =>
    rw [List.reverse_cons, List.foldlM_append, Option.bind_eq_bind, Option.bind_eq_some_iff] at h
    obtain ⟨s₁, h₁, h⟩ := h
    obtain ⟨hchildren, ho₁, hfree⟩ := ih (fun y hy => hnews y (List.mem_cons_of_mem x hy)) (List.nodup_cons.1 hnodup).2 h₁
    obtain ⟨s₂, h₂, h⟩ := Option.bind_eq_some_iff.1 h
    cases h
    obtain ⟨s₃, h₃, rfl⟩ := insertBeforeJumpTo_inv h₂
    have hx := hfree x (hnews x List.mem_cons_self) (List.nodup_cons.1 hnodup).1
    have hp := insertAfter_placed hx.fits ho₁ hchildren h₃
    refine ⟨?_, hp.owned ho₁ hx.detached hx.fits, fun y hy hynews => ?_⟩
    · change s₃.children c = _
      simp [hp.children]
    · rw [List.mem_cons, not_or] at hynews
      exact hp.insertable (hfree y hy hynews.2) hynews.1

/-- The full operations, with sizes and positions, leave the child list that is left here. -/
theorem insertAll_refines {casts : Casts} {code : Code} (hcode : code.children = s.children c) (ho : s.Owned)
    (hnews : ∀ x ∈ news, s.Insertable c x) (hnodup : news.Nodup) :
    (∀ A B, s.children c = A ++ B → ChunkMutator.insertAllAfter env c A.getLast? news s = some s' →
      s'.children c = (code.insertAllAfter A.getLast? news).children) ∧
    (∀ A B, s.children c = A ++ B → ChunkMutator.insertAllBefore env c B.head? news false s = some s' →
      ∃ code', code.insertAllBefore casts B.head? news false = some code' ∧ s'.children c = code'.children) ∧
    (∀ A p B, s.children c = A ++ p :: B → (∀ y ∈ s.children c ++ news, code.Designated casts y) →
      ChunkMutator.insertAllBefore env c (some p) news true s = some s' →
      ∃ code', code.insertAllBefore casts (some p) news true = some code' ∧ s'.children c = code'.children) := by
  have hall : ∀ A B, s.children c = A ++ B → (A ++ (news ++ B)).Nodup := by
    intro A B hsplit
    refine (List.Perm.append_left A List.perm_append_comm).nodup_iff.1 ?_
    rw [← List.append_assoc, ← hsplit]
    exact List.nodup_append.2 ⟨ho.nodup c, hnodup, fun y hy z hz he => (hnews z hz).detached c (he ▸ hy)⟩
  refine ⟨fun A B hsplit h => ?_, fun A B hsplit h => ?_, fun A p B hsplit hdes h => ?_⟩
  · have hA : (A ++ news).Nodup :=
      (hall A B hsplit).sublist (by rw [← List.append_assoc]; exact List.sublist_append_left _ _)
    rw [insertAllAfter_children ho hnews hnodup hsplit h, Code.insertAllAfter_eq (hcode.trans hsplit) rfl hA]
  · refine ⟨_, Code.insertAllBefore_eq (hcode.trans hsplit) rfl (hall A B hsplit), ?_⟩
    rw [insertAllBefore_children ho hnews hnodup hsplit h]
  · have hnodup' := (List.Perm.append_left A List.perm_middle).nodup_iff.1 (hall A (p :: B) hsplit)
    obtain ⟨code', hrun, hcarries, -⟩ := Code.insertAllBefore_carries (hcode.trans hsplit) hnodup' hdes (by simp [hsplit])
      fun y hy => List.mem_append_right _ hy
    exact ⟨code', hrun, (insertAllBefore_jump_children ho hnews hnodup hsplit h).1.trans hcarries.children.symm⟩

end Refines

/-- The new instruction behind the one that jumps to the point lead to. -/
theorem insertAll_refines_sample : ∃ s' code',
    ChunkMutator.insertAllBefore sampleEnv 1 (some 2) [3] true sampleState = some s' ∧
      (⟨[2], id, some, some⟩ : Code).insertAllBefore sampleCasts (some 2) [3] true = some code' ∧
        s'.children 1 = code'.children := by
  have hsome : (ChunkMutator.insertAllBefore sampleEnv 1 (some 2) [3] true sampleState).isSome := by decide +kernel
  obtain ⟨s', hs'⟩ := Option.isSome_iff_exists.1 hsome
  have hnews : ∀ x ∈ [3], sampleState.Insertable 1 x := by
    intro x hx
    obtain rfl := List.mem_singleton.1 hx
    exact sampleState_insertable
  have howned := (sampleState_exact.linked sampleState_typed).owned
  obtain ⟨code', hcode', hchildren⟩ : ∃ code',
      (⟨[2], id, some, some⟩ : Code).insertAllBefore sampleCasts (some 2) [3] true = some code' ∧
        s'.children 1 = code'.children :=
    (insertAll_refines rfl howned hnews (List.nodup_singleton 3)).2.2 [] 2 [] rfl
      (fun y _ => ⟨fun _ => rfl, fun _ => rfl⟩) hs'
  exact ⟨s', code', hs', hcode', hchildren⟩

end Egalito.Mutator
