import Egalito.Serializer.ChunkTree
import Egalito.Lib.Run
/-!
# Which chunk trees come back

Every flat chunk has the type of a chunk of the tree. The tables send a type from
`TYPE_InitFunctionList` on to a class with a larger type, so nothing comes back
as the chunk with the smallest such type: a tree that has one is lost. What is
left are the four lists before that type, as long as they are empty.
-/

open Egalito.Archive Egalito.Lib

namespace Egalito.Serializer.ChunkTree

/-! ## Types of the flat chunks -/

/-- The types of the chunks of a tree. -/
def TypeIn (memory : Memory) (root : Nat) (type : EgalitoChunkType) : Prop :=
  ∃ a, InTree memory root a ∧ (memory a).cls.getFlatType = type

/-- The flat chunks are for chunks of the tree. -/
structure Within (memory : Memory) (root : Nat) (op : Operations) : Prop where
  flats : ∀ flat : Flat, some flat ∈ op.flatList → TypeIn memory root flat.type
  isModule : op.localModuleOnly = true → (memory root).cls = .module

namespace Within

variable {memory : Memory} {root : Nat} {op op' : Operations}

theorem newFlatChunk (h : Within memory root op) {type : EgalitoChunkType} (htype : TypeIn memory root type) (id : Nat) :
    Within memory root (op.newFlatChunk type id) := by
  refine ⟨fun flat hflat => ?_, h.isModule⟩
  rcases List.mem_or_eq_of_mem_set hflat with hflat | heq
  · rcases List.mem_append.1 hflat with hflat | hflat
    · exact h.flats flat hflat
    · simp [List.mem_replicate] at hflat
  · cases heq
    exact htype

theorem write (h : Within memory root op) (id : Nat) (token : Token) : Within memory root (op.write id token) := by
  refine ⟨fun flat hflat => ?_, h.isModule⟩
  obtain ⟨i, hi⟩ := List.mem_iff_getElem?.1 hflat
  unfold Operations.write at hi
  rw [List.getElem?_modify] at hi
  cases hold : op.flatList[i]? with
  | none => simp [hold] at hi
  | some old =>
    rw [hold] at hi
    have hmem := List.mem_of_getElem? hold
    split at hi
    · cases old with
      | none => simp at hi
      | some old =>
        obtain rfl := Option.some.inj (Option.some.inj hi)
        exact h.flats old hmem
    · cases hi
      exact h.flats flat hmem

theorem getNextID (h : Within memory root op) : Within memory root op.getNextID.2 := ⟨h.flats, h.isModule⟩

theorem assign (h : Within memory root op) (object : Nat) : Within memory root (op.assign object).2 := by
  unfold Operations.assign
  split
  · exact h
  · exact ⟨h.flats, h.isModule⟩

theorem writeItem (h : Within memory root op) (id : Nat) (item : Item) : Within memory root (op.writeItem id item) := by
  cases item with
  | data bytes => exact h.write _ _
  | ref object =>
    cases object with
    | none => exact h.write _ _
    | some object => exact (h.assign object).write _ _

theorem writeItems (h : Within memory root op) (id : Nat) (items : List Item) :
    Within memory root (op.writeItems id items) :=
  List.foldlRecOn items _ h fun _ h item _ => h.writeItem id item

theorem assignChildren (h : Within memory root op) (id : Nat) (children : List Nat) :
    Within memory root (Operations.assignChildren id children op).2 := by
  induction children generalizing op with
  | nil => exact h
  | cons child children ih => exact ih ((h.assign child).write id _)

theorem serializeChildren (h : Within memory root op) {serialize : Nat → Nat → Operations → Option Operations} {id : Nat}
    {children : List Nat} (hrec : ∀ child ∈ children, ∀ i op op', Within memory root op →
      serialize child i op = some op' → Within memory root op')
    (hrun : Operations.serializeChildren serialize id children op = some op') : Within memory root op' := by
  have hzip : ∀ ids : List Nat, ∀ p ∈ children.zip ids, ∀ _ : Operations, p.1 ∈ children := fun ids p hp _ =>
    (List.of_mem_zip hp).1
  refine foldlM_invariant (Within memory root) (fun op p op' hop hp hstep => ?_)
    ((h.write id _).assignChildren id children) (along_of_mem (P := fun _ p => p.1 ∈ children) (hzip _) _) hrun
  exact hrec p.1 hp p.2 op op' hop hstep

theorem serializeIDs (h : Within memory root op) (id : Nat) {children : List Nat}
    (hchildren : ∀ child ∈ children, InTree memory root child) :
    Within memory root (op.serializeIDs memory id children) :=
  List.foldlRecOn children _ (h.write id _) fun _ h child hchild =>
    (((h.assign child).newFlatChunk ⟨child, hchildren child hchild, rfl⟩ _).write id _)

theorem serializeFunction (h : Within memory root op) (id : Nat) {function : Chunk}
    (hblocks : ∀ block ∈ function.children, InTree memory root block) :
    Within memory root (op.serializeFunction memory id function) := by
  refine List.foldlRecOn _ _ (write ?_ id _) fun op h block _ =>
    List.foldlRecOn _ _ (h.write id _) fun op h instr _ => h.writeItems id _
  refine List.foldlRecOn _ _ ?_ fun op h block hblock =>
    h.serializeIDs id fun instr hinstr => .tail (hblocks block hblock) (List.mem_append_left _ hinstr)
  exact (h.writeItems id _).serializeIDs id hblocks

end Within

section

variable {memory : Memory} {root : Nat}

theorem InTree.child {a b : Nat} (h : InTree memory root a) (hb : b ∈ (memory a).children) : InTree memory root b :=
  .tail h (List.mem_append_left _ hb)

theorem InTree.attached {a b : Nat} (h : InTree memory root a) (hb : (memory a).attached = some b)
    (hcls : (memory a).cls = .program ∨ (memory a).cls = .module ∧ (memory root).cls = .module) :
    InTree memory root b := by
  refine .tail h (List.mem_append_right _ ?_)
  simp [hcls, hb]

theorem mem_moduleLists {c : Chunk} {p : Option Nat × Bool} (hp : p ∈ moduleLists memory c) {list : Nat}
    (hlist : p.1 = some list) : list ∈ c.children := by
  simp only [moduleLists, List.mem_cons, List.not_mem_nil, or_false] at hp
  rcases hp with rfl | rfl | rfl | rfl | rfl | rfl | rfl | rfl <;> exact List.mem_of_find?_eq_some hlist

/-- Serializing a chunk of the tree makes flat chunks for chunks of the tree. -/
theorem within_serializeChunk {fuel a id : Nat} {op op' : Operations} (ha : InTree memory root a)
    (hop : Within memory root op) (hrun : serializeChunk memory fuel a id op = some op') : Within memory root op' := by
  induction fuel generalizing a id op op' with
  | zero => cases hrun
  | succ fuel ih =>
    have hnew := hop.newFlatChunk ⟨a, ha, rfl⟩ id
    have hchild : ∀ child ∈ (memory a).children, ∀ i op op', Within memory root op →
        serializeChunk memory fuel child i op = some op' → Within memory root op' :=
      fun child hc i op op' hop hrun => ih (ha.child hc) hop hrun
    have hlist : ∀ {op op' : Operations} {list : Nat}, InTree memory root list → Within memory root op →
        ((serializeChunk memory fuel list op.getNextID.1 op.getNextID.2).map fun op' =>
          op'.write id (.id (some op.getNextID.1))) = some op' → Within memory root op' := by
      intro op op' list hl hop hrun
      obtain ⟨op₁, h₁, rfl⟩ := Option.map_eq_some_iff.1 hrun
      exact (ih hl hop.getNextID h₁).write id _
    rw [serializeChunk] at hrun
    split at hrun
    case h_1 hcls =>
      simp only [Option.bind_eq_bind, Option.bind_eq_some_iff, Option.pure_def, Option.some.injEq] at hrun
      obtain ⟨list, hattached, op₁, h₁, op₂, h₂, rfl⟩ := hrun
      have hw₁ := hlist (ha.attached hattached (Or.inl hcls)) hnew h₁
      exact (hw₁.serializeChildren hchild h₂).writeItems id _
    case h_2 hcls =>
      simp only [Option.bind_eq_bind, Option.bind_eq_some_iff, Option.pure_def] at hrun
      obtain ⟨op₁, h₁, hrun⟩ := hrun
      have hw₁ : Within memory root op₁ := by
        refine foldlM_invariant (Within memory root) (fun op p op' hop hp hstep => ?_)
          ((hnew.writeItems id _).writeItem id _)
          (along_of_mem (P := fun _ p => p ∈ moduleLists memory (memory a)) (fun p hp _ => hp) _) h₁
        obtain ⟨list, optional⟩ := p
        cases list with
        | some list => exact hlist (ha.child (mem_moduleLists hp rfl)) hop hstep
        | none =>
          dsimp only at hstep
          split at hstep
          · cases hstep
            exact hop.write id _
          · cases hstep
      split at hrun
      case h_1 library hlocal hattached =>
        exact ih (ha.attached hattached (Or.inr ⟨hcls, hw₁.isModule hlocal⟩)) (hw₁.assign library) hrun
      case h_2 =>
        cases hrun
        exact hw₁
    case h_8 => exact (hnew.writeItem id _).serializeChildren hchild hrun
    case h_9 =>
      cases hrun
      exact hnew.serializeFunction id fun block hblock => ha.child hblock
    case h_10 => cases hrun
    case h_11 =>
      cases hrun
      exact hnew
    case h_12 =>
      cases hrun
      exact hnew
    case h_13 =>
      split at hrun
      · obtain ⟨op₁, h₁, hrun⟩ := Option.bind_eq_some_iff.1 hrun
        cases hrun
        exact ((hnew.writeItems id _).serializeChildren hchild h₁).writeItems id _
      · cases hrun
        exact (hnew.writeItems id _).writeItems id _
    all_goals exact hnew.serializeChildren hchild hrun

theorem typeIn_of_serialize {fuel : Nat} {flats : List Flat} (h : serialize memory fuel root = some flats) {flat : Flat}
    (hflat : flat ∈ flats) : TypeIn memory root flat.type := by
  unfold serialize at h
  simp only [Option.bind_eq_bind, Option.bind_eq_some_iff] at h
  obtain ⟨op, hrun, hall⟩ := h
  have hwithin : Within memory root op := by
    refine within_serializeChunk .refl ⟨by simp, fun hmodule => ?_⟩ hrun
    exact eq_of_beq hmodule
  obtain ⟨x, hx, hid⟩ := exists_left_of_forall₂ (mapM_eq_some_iff.1 hall) flat hflat
  exact hwithin.flats flat (hid ▸ hx)

end

/-! ## What comes back for a type -/

/-- The class that is instantiated for a flat chunk of the type when it has been read back. -/
def comesBack (type : EgalitoChunkType) : Option ChunkClass :=
  ((encodeChunkType type).bind fun code => instantiate (decodeChunkType code)).join

/-- A type that the tables know comes back as its own class, and every other one as none or as a later one. -/
theorem comesBack_spec (type : EgalitoChunkType) (cls : ChunkClass) (h : comesBack type = some cls) :
    InTable type ∧ cls.getFlatType = type ∨ ¬ InTable type ∧ type.value < cls.getFlatType.value := by
  cases type <;> revert cls <;> decide

/-- No chunk of a tree that comes back has a type that the tables leave out. -/
theorem RoundTrips.inTable {readers : Readers} {t : ChunkTree} (h : RoundTrips readers t) :
    ∀ a, InTree t.memory t.root a → InTable (t.memory a).cls.getFlatType := by
  obtain ⟨fuel, flats, flats', classes, heap, hwrite, hread, hrun, place, -, -, hrebuilt⟩ := h
  by_contra hnot
  push Not at hnot
  -- the smallest of these types would have to come back from a smaller one
  let P : Nat → Prop := fun n =>
    ∃ a, InTree t.memory t.root a ∧ ¬ InTable (t.memory a).cls.getFlatType ∧ (t.memory a).cls.getFlatType.value = n
  have hex : ∃ n, P n := by
    obtain ⟨a, ha, hout⟩ := hnot
    exact ⟨_, a, ha, hout, rfl⟩
  classical
  obtain ⟨a, ha, hout, hvalue⟩ := Nat.find_spec hex
  have hclasses : flats'.mapM (fun flat => instantiate flat.type) = some classes := by
    unfold deserialize at hrun
    simp only [Option.bind_eq_bind, Option.bind_eq_some_iff, Option.pure_def, Option.some.injEq, Prod.mk.injEq] at hrun
    obtain ⟨classes', hclasses, -, -, rfl, -⟩ := hrun
    exact hclasses
  obtain ⟨flat', hflat', hinst⟩ := exists_left_of_forall₂ (mapM_eq_some_iff.1 hclasses) _
    (List.mem_of_getElem? (hrebuilt a ha).cls)
  obtain ⟨flat, hflat, hcode⟩ := exists_left_of_forall₂ (mapM_eq_some_iff.1 hread) flat' hflat'
  obtain ⟨code, hencode, rfl⟩ := Option.map_eq_some_iff.1 hcode
  obtain ⟨b, hb, htype⟩ := typeIn_of_serialize hwrite hflat
  have hback : comesBack flat.type = some (t.memory a).cls := by
    unfold comesBack
    rw [hencode, Option.bind_some, hinst]
    rfl
  rcases comesBack_spec _ _ hback with ⟨hin, heq⟩ | ⟨hnotin, hlt⟩
  · exact hout (heq ▸ hin)
  · refine Nat.find_min hex ?_ ⟨b, hb, htype ▸ hnotin, rfl⟩
    rw [htype, ← hvalue]
    exact hlt

/-! ## The trees that come back -/

/-- A tree that is one list without children, of a type that the tables know, and with no TLS region. -/
structure IsEmptyList (t : ChunkTree) : Prop where
  cls : (t.memory t.root).cls = .functionList ∨ (t.memory t.root).cls = .pltList ∨
    (t.memory t.root).cls = .jumpTableList ∨ (t.memory t.root).cls = .dataRegionList
  children : (t.memory t.root).children = []
  tls : (t.memory t.root).cls = .dataRegionList → (t.memory t.root).attached = none

section

variable {memory : Memory} {root fuel : Nat} {flats : List Flat}

theorem inTable_cases {cls : ChunkClass} (h : InTable cls.getFlatType) : cls = .program ∨ cls = .module ∨
    cls = .functionList ∨ cls = .pltList ∨ cls = .jumpTableList ∨ cls = .dataRegionList := by
  cases cls <;> revert h <;> decide

/-- The tables know none of the classes that the four lists take. -/
theorem not_inTable_of_accepts {list cls : ChunkClass} (h : accepts list cls = true)
    (hlist : list = .functionList ∨ list = .pltList ∨ list = .jumpTableList ∨ list = .dataRegionList) :
    ¬ InTable cls.getFlatType := by
  rcases hlist with rfl | rfl | rfl | rfl <;> cases cls <;> revert h <;> decide

theorem program_attached (h : serialize memory fuel root = some flats) (hcls : (memory root).cls = .program) :
    ∃ list, (memory root).attached = some list := by
  cases fuel with
  | zero => cases h
  | succ fuel =>
    unfold serialize at h
    obtain ⟨op, hrun, -⟩ := Option.bind_eq_some_iff.1 h
    rw [serializeChunk] at hrun
    simp only [hcls] at hrun
    obtain ⟨list, hlist, -⟩ := Option.bind_eq_some_iff.1 hrun
    exact ⟨list, hlist⟩

theorem module_externalSymbolList (h : serialize memory fuel root = some flats) (hcls : (memory root).cls = .module) :
    ∃ list ∈ (memory root).children, (memory list).cls = .externalSymbolList := by
  cases fuel with
  | zero => cases h
  | succ fuel =>
    unfold serialize at h
    obtain ⟨op, hrun, -⟩ := Option.bind_eq_some_iff.1 h
    rw [serializeChunk] at hrun
    simp only [hcls] at hrun
    obtain ⟨op₁, h₁, -⟩ := Option.bind_eq_some_iff.1 hrun
    obtain ⟨op₂, op₃, hstep⟩ := exists_step_of_foldlM h₁
      ((memory root).children.find? fun child => (memory child).cls == .externalSymbolList, false)
      (by simp [moduleLists])
    cases hfind : (memory root).children.find? fun child => (memory child).cls == .externalSymbolList with
    | none => simp [hfind] at hstep
    | some list => exact ⟨list, List.mem_of_find?_eq_some hfind, by simpa using List.find?_some hfind⟩

/-- What is written for a list without children. -/
theorem serialize_empty (hchildren : (memory root).children = []) {cls : ChunkClass} (hroot : (memory root).cls = cls)
    (hcls : cls = .functionList ∨ cls = .pltList ∨ cls = .jumpTableList) :
    serialize memory (fuel + 1) root = some [⟨cls.getFlatType, [.count 0]⟩] := by
  unfold serialize
  rw [serializeChunk]
  rcases hcls with rfl | rfl | rfl <;> simp only [hroot, hchildren] <;> rfl

theorem serialize_emptyRegions (hchildren : (memory root).children = []) (hroot : (memory root).cls = .dataRegionList) :
    serialize memory (fuel + 1) root = some [⟨.dataRegionList,
      [.id ((memory root).attached.map fun _ => 1), .count 0]⟩] := by
  unfold serialize
  rw [serializeChunk]
  simp only [hroot, hchildren]
  cases (memory root).attached <;> rfl

end

theorem isEmptyList_of_roundTrips {readers : Readers} {t : ChunkTree} (h : RoundTrips readers t) : IsEmptyList t := by
  have hin := h.inTable
  obtain ⟨fuel, flats, flats', classes, heap, hwrite, hread, hrun, -⟩ := h
  have hlists : (t.memory t.root).cls = .functionList ∨ (t.memory t.root).cls = .pltList ∨
      (t.memory t.root).cls = .jumpTableList ∨ (t.memory t.root).cls = .dataRegionList := by
    rcases inTable_cases (hin t.root .refl) with hcls | hcls | hlists
    · -- its library list would have to come back
      obtain ⟨list, hlist⟩ := program_attached hwrite hcls
      have hout := hin list (InTree.attached .refl hlist (Or.inl hcls))
      rw [t.libraryList t.root .refl hcls list hlist] at hout
      exact absurd hout (by decide)
    · obtain ⟨list, hmem, hlist⟩ := module_externalSymbolList hwrite hcls
      have hout := hin list (InTree.child .refl hmem)
      rw [hlist] at hout
      exact absurd hout (by decide)
    · exact hlists
  have hchildren : (t.memory t.root).children = [] := by
    refine List.eq_nil_iff_forall_not_mem.2 fun b hb => ?_
    exact not_inTable_of_accepts (t.children t.root .refl b hb) hlists (hin b (InTree.child .refl hb))
  refine ⟨hlists, hchildren, fun hcls => ?_⟩
  cases fuel with
  | zero => cases hwrite
  | succ fuel =>
    rw [serialize_emptyRegions hchildren hcls] at hwrite
    cases hattached : (t.memory t.root).attached with
    | none => rfl
    | some tls =>
      -- the id of the region has no flat chunk
      rw [hattached] at hwrite
      cases hwrite
      cases hread
      cases hrun

theorem roundTrips_of_isEmptyList (readers : Readers) {t : ChunkTree} (h : IsEmptyList t) : RoundTrips readers t := by
  have hparts : parts t.memory t.root t.root = [] := by
    unfold parts
    dsimp only
    rw [h.children]
    rcases h.cls with hcls | hcls | hcls | hcls <;> simp [hcls]
  have honly : ∀ a, InTree t.memory t.root a → a = t.root := fun a ha => by
    induction ha with
    | refl => rfl
    | tail _ hpart ih =>
      rw [ih, hparts] at hpart
      cases hpart
  have hsame : ∀ heap : Heap, (heap 0).children = [] → SameTree t [some (t.memory t.root).cls] heap := fun heap hheap => by
    refine ⟨fun _ => 0, rfl, fun a ha b hb _ => (honly a ha).trans (honly b hb).symm, fun a ha => ?_⟩
    rw [honly a ha]
    refine ⟨rfl, by rw [h.children, hheap]; rfl, fun hcls => ?_, fun hcls => ?_⟩
    all_goals rcases h.cls with hcls' | hcls' | hcls' | hcls' <;> rw [hcls] at hcls' <;> cases hcls'
  rcases h.cls with hcls | hcls | hcls | hcls
  · exact ⟨1, _, _, _, _, serialize_empty h.children hcls (by simp), rfl, rfl, hcls ▸ hsame _ rfl⟩
  · exact ⟨1, _, _, _, _, serialize_empty h.children hcls (by simp), rfl, rfl, hcls ▸ hsame _ rfl⟩
  · exact ⟨1, _, _, _, _, serialize_empty h.children hcls (by simp), rfl, rfl, hcls ▸ hsame _ rfl⟩
  · have hwrite : serialize t.memory (0 + 1) t.root = _ := serialize_emptyRegions h.children hcls
    rw [h.tls hcls] at hwrite
    exact ⟨1, _, _, _, _, hwrite, rfl, rfl, hcls ▸ hsame _ rfl⟩

/-- The serializer keeps a tree exactly if it is an empty list that the tables know. -/
theorem chunk_tree_round_trip_iff (readers : Readers) (t : ChunkTree) : RoundTrips readers t ↔ IsEmptyList t :=
  ⟨isEmptyList_of_roundTrips, roundTrips_of_isEmptyList readers⟩

/-- A `FunctionList` with one function, which has no blocks. -/
def oneFunction : ChunkTree where
  memory a := ⟨if a = 0 then .functionList else .function, if a = 0 then [1] else [], none, false,
    if a = 0 then [] else [.data [0, 0, 0, 0, 0, 0, 0, 0], .data [], .data [0], .data [0], .data [1]], [], [], 0, 0⟩
  root := 0
  children a _ b hb := by
    dsimp only at hb
    split at hb
    case isTrue ha => simp [ha, List.mem_singleton.1 hb, accepts]
    case isFalse => cases hb
  libraryList a _ hcls := by
    dsimp only at hcls
    split at hcls <;> cases hcls

theorem oneFunction_lost : ¬ ∃ readers, RoundTrips readers oneFunction := by
  rintro ⟨readers, h⟩
  have hchildren := (isEmptyList_of_roundTrips h).children
  cases hchildren

end Egalito.Serializer.ChunkTree
