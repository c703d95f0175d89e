import Egalito.Pass.SplitFunction
/-!
# What the splits do to the functions

Were it harmless to delete a position twice, the pass would do what it is for: a
split cuts the blocks of one function in two and moves none of them, and the
rounds end since there are never more functions than blocks.
-/

open Relation Egalito.Lib Egalito.Analysis

namespace Egalito.SplitFunction

/-! ## Offsets -/

def sizes (blocks : List Block) : Nat := (blocks.map (·.getSize)).sum

@[simp] theorem sizes_append (a b : List Block) : sizes (a ++ b) = sizes a + sizes b := by simp [sizes]

@[simp] theorem sizes_cons (b : Block) (blocks : List Block) : sizes (b :: blocks) = b.getSize + sizes blocks := rfl

@[simp] theorem sizes_nil : sizes [] = 0 := rfl

@[simp] theorem getSize_offset (b : Block) (offset : Nat) : { b with offset }.getSize = b.getSize := rfl

theorem recalculate_append (n : Nat) (a b : List Block) :
    recalculate n (a ++ b) = recalculate n a ++ recalculate (n + sizes a) b := by
  induction a generalizing n with
  | nil => rfl
  | cons x a ih => simp [recalculate, ih, Nat.add_assoc]

/-- Only what stands in front decides where a block is. -/
theorem recalculate_recalculate (n m : Nat) (l : List Block) : recalculate n (recalculate m l) = recalculate n l := by
  induction l generalizing n m with
  | nil => rfl
  | cons x l ih => simp [recalculate, ih]

@[simp] theorem sizes_recalculate (n : Nat) (l : List Block) : sizes (recalculate n l) = sizes l := by
  induction l generalizing n with
  | nil => rfl
  | cons x l ih => simp [recalculate, ih]

def Block.content (b : Block) : Nat × List Instruction := (b.id, b.instructions)

theorem map_content_recalculate (n : Nat) (l : List Block) :
    (recalculate n l).map Block.content = l.map Block.content := by
  induction l generalizing n with
  | nil => rfl
  | cons x l ih =>
    rw [recalculate, List.map_cons, ih]
    rfl

theorem map_id_of_content {l l' : List Block} (h : l.map Block.content = l'.map Block.content) :
    l.map (·.id) = l'.map (·.id) := by
  have hfst := congrArg (List.map Prod.fst) h
  rw [List.map_map, List.map_map] at hfst
  exact hfst

@[simp] theorem length_recalculate (n : Nat) (l : List Block) : (recalculate n l).length = l.length := by
  induction l generalizing n with
  | nil => rfl
  | cons x l ih => simp [recalculate, ih]

theorem recalculate_eraseP (n m id : Nat) (l : List Block) :
    recalculate n ((recalculate m l).eraseP (·.id == id)) = recalculate n (l.eraseP (·.id == id)) := by
  induction l generalizing n m with
  | nil => rfl
  | cons x l ih =>
    rw [recalculate, List.eraseP_cons, List.eraseP_cons]
    cases hx : x.id == id with
    | true => simp [recalculate_recalculate]
    | false => simp [recalculate, ih]

/-- The blocks from an address on, by their ids and instructions. -/
def placeFrom : Nat → List (Nat × List Instruction) → List (Nat × Nat × List Instruction)
  | _, [] => []
  | address, (id, instructions) :: rest =>
    (id, address, instructions) :: placeFrom (address + (instructions.map (·.size)).sum) rest

theorem placed_recalculate (address n : Nat) (l : List Block) :
    (recalculate n l).map (fun b => (b.id, address + b.offset, b.instructions)) =
      placeFrom (address + n) (l.map Block.content) := by
  induction l generalizing n with
  | nil => rfl
  | cons x l ih => simp [recalculate, placeFrom, Block.content, ih, Block.getSize, Nat.add_assoc]

theorem placeFrom_append (address : Nat) (a b : List Block) :
    placeFrom address ((a ++ b).map Block.content) =
      placeFrom address (a.map Block.content) ++ placeFrom (address + sizes a) (b.map Block.content) := by
  induction a generalizing address with
  | nil => rfl
  | cons x a ih =>
    simp only [List.cons_append, List.map_cons, Block.content, placeFrom, sizes_cons, ← Nat.add_assoc] at ih ⊢
    rw [ih]
    rfl

theorem Function.WellFormed.placed_eq {f : Function} (h : f.WellFormed) :
    f.placed = placeFrom f.address (f.blocks.map Block.content) := by
  rw [Function.placed, ← h.offsets, placed_recalculate, h.offsets, Nat.add_zero]

/-! ## The loops of a split -/

/-- Nothing happens. -/
def harmless (m : Memory) (_ : Nat) : Option Memory := some m

theorem delete_harmless (m : Memory) (position : Nat) : ∃ m', m.delete harmless position = some m' := by
  unfold Memory.delete harmless
  split
  · exact ⟨_, rfl⟩
  · exact ⟨m, rfl⟩

/-- One block is taken out of the end of a function. -/
theorem remove_spec {f : Function} {front rest : List Block} {child : Block}
    (hblocks : f.blocks = recalculate 0 (front ++ child :: rest)) (hsize : f.size = sizes (front ++ child :: rest))
    (hfront : ∀ b ∈ front, b.id ≠ child.id) :
    remove f child = some { f with blocks := recalculate 0 (front ++ rest), size := sizes (front ++ rest) } := by
  have herase : recalculate 0 (f.blocks.eraseP (·.id == child.id)) = recalculate 0 (front ++ rest) := by
    rw [hblocks, recalculate_eraseP, List.eraseP_append_right _ (by simpa using hfront),
      List.eraseP_cons_of_pos (by simp)]
  have hsub : sizes (front ++ rest) = f.size - child.getSize := by
    rw [hsize]
    simp only [sizes_append, sizes_cons]
    omega
  rw [remove, herase, hsub]
  split
  case isTrue hzero => simp [hzero]
  case isFalse hpos =>
    rw [if_pos]
    rw [hsize]
    simp only [sizes_append, sizes_cons]
    omega

theorem removeAll_spec {front : List Block} {moveList : List Block} {f : Function} (m : Memory)
    (hblocks : f.blocks = recalculate 0 (front ++ moveList)) (hsize : f.size = sizes (front ++ moveList))
    (hfront : ∀ child ∈ moveList, ∀ b ∈ front, b.id ≠ child.id) :
    ∃ m', removeAll harmless moveList (f, m) =
      some ({ f with blocks := recalculate 0 front, size := sizes front }, m') := by
  induction moveList generalizing f m with
  | nil =>
    rw [List.append_nil] at hblocks hsize
    exact ⟨m, by rw [← hblocks, ← hsize]; rfl⟩
  | cons child rest ih =>
    obtain ⟨m₁, hm₁⟩ := delete_harmless m child.position
    obtain ⟨m', hrun⟩ := ih (f := { f with blocks := recalculate 0 (front ++ rest), size := sizes (front ++ rest) }) m₁
      rfl rfl fun c hc => hfront c (List.mem_cons_of_mem _ hc)
    refine ⟨m', ?_⟩
    rw [removeAll, List.foldlM_cons]
    simp only [remove_spec hblocks hsize (hfront child List.mem_cons_self), hm₁, Option.bind_eq_bind, Option.bind_some,
      Option.pure_def]
    exact hrun

theorem appendAll_spec {done : List Block} {moveList : List Block} {f : Function} (m : Memory)
    (hblocks : f.blocks = recalculate 0 done) (hsize : f.size = sizes done) :
    ∃ moved m', appendAll harmless moveList (f, m) =
        some ({ f with blocks := recalculate 0 (done ++ moved), size := sizes (done ++ moved) }, m') ∧
      moved.map Block.content = moveList.map Block.content := by
  induction moveList generalizing done f m with
  | nil => exact ⟨[], m, by rw [List.append_nil, ← hblocks, ← hsize]; rfl, rfl⟩
  | cons child rest ih =>
    obtain ⟨m₁, hm₁⟩ := delete_harmless m child.position
    let child' : Block := { child with position := m₁.next, offset := f.size }
    have happend : append f child' =
        { f with blocks := recalculate 0 (done ++ [child']), size := sizes (done ++ [child']) } := by
      rw [append, hblocks, recalculate_append, recalculate_recalculate, sizes_recalculate, ← recalculate_append, hsize]
      simp
    have hblocks' : (append f child').blocks = recalculate 0 (done ++ [child']) := by rw [happend]
    have hsize' : (append f child').size = sizes (done ++ [child']) := by rw [happend]
    obtain ⟨moved, m', hrun, hmoved⟩ := ih m₁.makePosition.2 hblocks' hsize'
    refine ⟨child' :: moved, m', ?_, by rw [List.map_cons, hmoved]; rfl⟩
    rw [appendAll, List.foldlM_cons]
    simp only [hm₁, Option.bind_eq_bind, Option.bind_some, Option.pure_def]
    rw [List.append_cons]
    refine hrun.trans ?_
    rw [happend]

/-! ## One split -/

/-- A function that is cut before one of its blocks. -/
structure Cut (f f₁ f₂ : Function) (point : Nat) : Prop where
  first : f₁.WellFormed
  second : f₂.WellFormed
  placed : f.placed = f₁.placed ++ f₂.placed
  head₁ : f₁.blocks.head?.map (·.id) = f.blocks.head?.map (·.id)
  head₂ : f₂.blocks.head?.map (·.id) = some point

/-- What stands in front of a block gives its offset. -/
theorem Function.WellFormed.offset_eq {f : Function} (h : f.WellFormed) {front rest : List Block} {b : Block}
    (hblocks : f.blocks = front ++ b :: rest) : recalculate 0 front = front ∧ b.offset = sizes front := by
  have hoffsets := h.offsets
  rw [hblocks, recalculate_append] at hoffsets
  obtain ⟨hfront, hrest⟩ := List.append_inj hoffsets (length_recalculate 0 front)
  refine ⟨hfront, ?_⟩
  rw [recalculate, List.cons.injEq] at hrest
  rw [← hrest.1, Nat.zero_add]

variable {μ : Type}

theorem mem_ids {functions : List Function} {f : Function} {b : Block} (hf : f ∈ functions) (hb : b ∈ f.blocks) :
    b.id ∈ (functions.flatMap (·.blocks)).map (·.id) :=
  List.mem_map_of_mem (List.mem_flatMap_of_mem hf hb)

/-- The blocks of functions that stand at different places of the list are different. -/
theorem ids_ne {A B : List Function} {f g : Function} {b b' : Block}
    (h : (((A ++ f :: B).flatMap (·.blocks)).map (·.id)).Nodup) (hg : g ∈ A ∨ g ∈ B) (hb : b ∈ f.blocks)
    (hb' : b' ∈ g.blocks) : b'.id ≠ b.id := by
  rw [List.flatMap_append, List.flatMap_cons, List.map_append, List.map_append, List.nodup_append] at h
  obtain ⟨-, hrest, hA⟩ := h
  rcases hg with hg | hg
  · exact hA _ (mem_ids hg hb') _ (List.mem_append_left _ (List.mem_map_of_mem hb))
  · exact ((List.nodup_append.1 hrest).2.2 _ (List.mem_map_of_mem hb) _ (mem_ids hg hb')).symm

theorem ids_nodup {A B : List Function} {f : Function} (h : (((A ++ f :: B).flatMap (·.blocks)).map (·.id)).Nodup) :
    (f.blocks.map (·.id)).Nodup := by
  rw [List.flatMap_append, List.flatMap_cons, List.map_append, List.map_append, List.nodup_append] at h
  exact (List.nodup_append.1 h.2.1).1

theorem splitFunctionBefore_spec {s : State μ} {A B : List Function} {f : Function} {front rest : List Block} {b : Block}
    (hfunctions : s.functions = A ++ f :: B) (hf : f.WellFormed) (hblocks : f.blocks = front ++ b :: rest)
    (hfront : front ≠ []) (honce : ((s.functions.flatMap (·.blocks)).map (·.id)).Nodup) :
    ∃ s' f₁ f₂, splitFunctionBefore harmless s b.id = some s' ∧ s'.functions = A ++ f₁ :: B ++ [f₂] ∧
      s'.marks = s.marks ∧ Cut f f₁ f₂ b.id := by
  rw [hfunctions] at honce
  have hb : b ∈ f.blocks := by rw [hblocks]; simp
  have hids := ids_nodup honce
  rw [hblocks, List.map_append, List.map_cons] at hids
  have hfind : s.functions.findIdx? (fun g => g.blocks.any (·.id == b.id)) = some A.length := by
    have hA : A.findIdx? (fun g => g.blocks.any (·.id == b.id)) = none := by
      rw [List.findIdx?_eq_none_iff]
      intro g hg
      simpa using fun b' hb' => ids_ne honce (.inl hg) hb hb'
    rw [hfunctions, List.findIdx?_append, hA, List.findIdx?_cons, if_pos (List.any_eq_true.2 ⟨b, hb, by simp⟩)]
    simp
  have hget : s.functions[A.length]? = some f := by simp [hfunctions]
  have hne : ∀ x ∈ front, x.id ≠ b.id := fun x hx =>
    (List.nodup_append.1 hids).2.2 _ (List.mem_map_of_mem hx) _ List.mem_cons_self
  have hmove : f.blocks.dropWhile (·.id != b.id) = b :: rest := by
    rw [hblocks, List.dropWhile_append_of_pos (by simpa using hne), List.dropWhile_cons_of_neg (by simp)]
  have hdistinct : ∀ child ∈ b :: rest, ∀ x ∈ front, x.id ≠ child.id := fun child hchild x hx =>
    (List.nodup_append.1 hids).2.2 _ (List.mem_map_of_mem hx) _ (by simpa using List.mem_map_of_mem hchild)
  obtain ⟨hoffsets, hoffset⟩ := hf.offset_eq hblocks
  obtain ⟨m₁, hremove⟩ := removeAll_spec s.memory (hf.offsets ▸ hblocks ▸ rfl : f.blocks = recalculate 0 (front ++ b :: rest))
    (hblocks ▸ hf.size) hdistinct
  obtain ⟨moved, m₂, happend, hmoved⟩ : ∃ moved m₂, appendAll harmless (b :: rest)
        (⟨f.address + b.offset, 0, [], false⟩, m₁) =
          some (⟨f.address + b.offset, sizes ([] ++ moved), recalculate 0 ([] ++ moved), false⟩, m₂) ∧
      moved.map Block.content = (b :: rest).map Block.content := appendAll_spec m₁ rfl rfl
  rw [List.nil_append] at happend
  have hfirst : Function.WellFormed { f with blocks := recalculate 0 front, size := sizes front } :=
    ⟨hf.symbol, by rwa [hoffsets], by rw [hoffsets]; rfl, recalculate_recalculate 0 0 front⟩
  have hsecond : Function.WellFormed ⟨f.address + b.offset, sizes moved, recalculate 0 moved, false⟩ := by
    refine ⟨rfl, fun hnil => ?_, (sizes_recalculate 0 moved).symm, recalculate_recalculate 0 0 moved⟩
    have hlen := congrArg List.length hmoved
    rw [List.length_map, ← length_recalculate 0 moved, show recalculate 0 moved = [] from hnil] at hlen
    cases hlen
  refine ⟨{ s with functions := A ++ _ :: B ++ [_], memory := m₂ }, _, _, ?_, rfl, rfl, hfirst, hsecond, ?_, ?_, ?_⟩
  · simp only [splitFunctionBefore, hfind, hget, hmove, List.head?_cons, hremove, happend, Option.bind_eq_bind,
      Option.bind_some, Option.pure_def, Option.some.injEq]
    rw [hfunctions, List.set_append_right _ _ le_rfl, Nat.sub_self, List.set_cons_zero]
  · rw [hf.placed_eq, hfirst.placed_eq, hsecond.placed_eq, hblocks, placeFrom_append, hoffsets, ← hoffset,
      map_content_recalculate, hmoved]
  · rw [hoffsets, hblocks]
    cases front with
    | nil => exact absurd rfl hfront
    | cons x front => rfl
  · rw [← List.head?_map, map_id_of_content (map_content_recalculate 0 moved), map_id_of_content hmoved]
    rfl

/-! ## A round -/

theorem Kept.trans {before between after : List Function} (h : Kept before between) (h' : Kept between after) :
    Kept before after := by
  refine ⟨h'.all.trans h.all, fun f'' hf'' => ?_⟩
  obtain ⟨f', hf', hinfix'⟩ := h'.order f'' hf''
  obtain ⟨f, hf, hinfix⟩ := h.order f' hf'
  exact ⟨f, hf, hinfix'.trans hinfix⟩

theorem Cut.kept {A B : List Function} {f f₁ f₂ : Function} {point : Nat} (h : Cut f f₁ f₂ point) :
    Kept (A ++ f :: B) (A ++ f₁ :: B ++ [f₂]) := by
  refine ⟨?_, fun g hg => ?_⟩
  · simp only [List.flatMap_append, List.flatMap_cons, List.flatMap_nil, List.append_nil, List.append_assoc, h.placed]
    exact ((List.perm_append_comm).append_left _).append_left _
  · simp only [List.mem_append, List.mem_cons, List.not_mem_nil, or_false] at hg
    rcases hg with (hg | rfl | hg) | rfl
    · exact ⟨g, List.mem_append_left _ hg, List.infix_rfl⟩
    · exact ⟨f, by simp, by rw [h.placed]; exact (List.prefix_append _ _).isInfix⟩
    · exact ⟨g, by simp [hg], List.infix_rfl⟩
    · exact ⟨f, by simp, by rw [h.placed]; exact (List.suffix_append _ _).isInfix⟩

theorem map_fst_placed (functions : List Function) :
    (functions.flatMap Function.placed).map (·.1) = (functions.flatMap (·.blocks)).map (·.id) := by
  rw [List.map_flatMap, List.map_flatMap]
  congr 1
  funext f
  rw [Function.placed, List.map_map]
  rfl

theorem Kept.ids_perm {before after : List Function} (h : Kept before after) :
    ((after.flatMap (·.blocks)).map (·.id)).Perm ((before.flatMap (·.blocks)).map (·.id)) := by
  rw [← map_fst_placed, ← map_fst_placed]
  exact h.all.map _

/-- The functions during a run of the pass that has begun with a list. -/
structure Good (list : FunctionList) (functions : List Function) : Prop where
  wellFormed : ∀ f ∈ functions, f.WellFormed
  kept : Kept list.functions functions

theorem Good.once {list : FunctionList} {functions : List Function} (h : Good list functions) :
    ((functions.flatMap (·.blocks)).map (·.id)).Nodup := h.kept.ids_perm.nodup_iff.2 list.once

/-- The ids of the first blocks. -/
def firsts (functions : List Function) : List (Option Nat) := functions.map fun f => f.blocks.head?.map (·.id)

/-- A block that is not the first one of its function. -/
def Inner (functions : List Function) (point : Nat) : Prop :=
  point ∈ (functions.flatMap (·.blocks)).map (·.id) ∧ some point ∉ firsts functions

theorem Inner.split {functions : List Function} {point : Nat} (h : Inner functions point) :
    ∃ A f B front b rest, functions = A ++ f :: B ∧ f.blocks = front ++ b :: rest ∧ front ≠ [] ∧ b.id = point := by
  obtain ⟨hin, hfirst⟩ := h
  obtain ⟨b, hb, rfl⟩ := List.mem_map.1 hin
  obtain ⟨f, hf, hbf⟩ := List.mem_flatMap.1 hb
  obtain ⟨A, B, rfl⟩ := List.append_of_mem hf
  obtain ⟨front, rest, hblocks⟩ := List.append_of_mem hbf
  refine ⟨A, f, B, front, b, rest, rfl, hblocks, fun hnil => hfirst ?_, rfl⟩
  rw [hnil] at hblocks
  exact List.mem_map.2 ⟨f, hf, by rw [hblocks]; rfl⟩

/-- A split of an inner block keeps the others. -/
theorem Good.split {list : FunctionList} {s : State μ} {point : Nat} (h : Good list s.functions)
    (hpoint : Inner s.functions point) : ∃ s', splitFunctionBefore harmless s point = some s' ∧
      Good list s'.functions ∧ s'.marks = s.marks ∧ s'.functions.length = s.functions.length + 1 ∧
      ∀ p, p ≠ point → Inner s.functions p → Inner s'.functions p := by
  obtain ⟨A, f, B, front, b, rest, hfunctions, hblocks, hfront, rfl⟩ := hpoint.split
  have hf : f.WellFormed := h.wellFormed f (by simp [hfunctions])
  obtain ⟨s', f₁, f₂, hsplit, hs', hmarks, hcut⟩ := splitFunctionBefore_spec hfunctions hf hblocks hfront h.once
  have hkept : Kept s.functions s'.functions := by
    rw [hfunctions, hs']
    exact hcut.kept
  refine ⟨s', hsplit, ⟨fun g hg => ?_, h.kept.trans hkept⟩, hmarks, ?_, fun p hp hinner => ?_⟩
  · have hold : ∀ x ∈ A ++ f :: B, x.WellFormed := hfunctions ▸ h.wellFormed
    rw [hs'] at hg
    simp only [List.mem_append, List.mem_cons, List.not_mem_nil, or_false] at hg
    rcases hg with (hg | rfl | hg) | rfl
    · exact hold g (by simp [hg])
    · exact hcut.first
    · exact hold g (by simp [hg])
    · exact hcut.second
  · simp only [hs', hfunctions, List.length_append, List.length_cons, List.length_nil, Nat.add_assoc]
  · refine ⟨hkept.ids_perm.symm.subset hinner.1, ?_⟩
    have hout := hinner.2
    simp only [hfunctions, hs', firsts, List.map_append, List.map_cons, List.map_nil, List.mem_append, List.mem_cons,
      List.not_mem_nil, or_false, not_or, hcut.head₁, hcut.head₂, Option.some.injEq] at hout ⊢
    exact ⟨⟨hout.1, hout.2.1, hout.2.2⟩, hp⟩

theorem Good.splitAll {list : FunctionList} {s : State μ} {points : List Nat} (h : Good list s.functions)
    (honce : points.Nodup) (hpoints : ∀ p ∈ points, Inner s.functions p) :
    ∃ s', points.foldlM (splitFunctionBefore harmless) s = some s' ∧ Good list s'.functions ∧
      s'.functions.length = s.functions.length + points.length := by
  induction points generalizing s with
  | nil => exact ⟨s, rfl, h, rfl⟩
  | cons p points ih =>
    obtain ⟨s₁, hsplit, hgood, -, hlen, hinner⟩ := h.split (hpoints p List.mem_cons_self)
    obtain ⟨hp, honce'⟩ := List.nodup_cons.1 honce
    obtain ⟨s', hrun, hgood', hlen'⟩ := ih hgood honce' fun q hq =>
      hinner q (fun hqp => hp (hqp ▸ hq)) (hpoints q (List.mem_cons_of_mem _ hq))
    refine ⟨s', ?_, hgood', ?_⟩
    · rw [List.foldlM_cons, hsplit]
      exact hrun
    · rw [hlen', hlen, List.length_cons]
      omega

/-! ## The split points -/

/-- Every block has instructions, and each of them an assembly. -/
def Assembled (blocks : List (Nat × Nat × List Instruction)) : Prop :=
  ∀ b ∈ blocks, b.2.2 ≠ [] ∧ ∀ i ∈ b.2.2, i.assemblyId.isSome

theorem isSingleNop_isSome {nop : Nat} {group : List Nat} {b : Block} (hne : b.instructions ≠ [])
    (hassembly : ∀ i ∈ b.instructions, i.assemblyId.isSome) : ∃ r, isSingleNop nop group b = some r := by
  unfold isSingleNop
  rcases hb : b.instructions with _ | ⟨i, _ | ⟨i', rest⟩⟩
  · exact absurd hb hne
  · obtain ⟨id, hid⟩ := Option.isSome_iff_exists.1 (hassembly i (by simp [hb]))
    simp only [hid]
    split <;> exact ⟨_, rfl⟩
  · exact ⟨false, rfl⟩

/-- A group gives no split point, or its first block. -/
def Gives (f : Function) (group : List Nat) (o : Option Nat) : Prop :=
  ∃ k rest b, group = k :: rest ∧ f.blocks[k]? = some b ∧ (o = none ∨ o = some b.id)

theorem splitPoint_gives {nop : Nat} {f : Function} {group : List Nat} {o : Option Nat}
    (h : splitPoint nop f group = some o) : Gives f group o := by
  simp only [splitPoint, Option.bind_eq_bind, Option.bind_eq_some_iff, Option.pure_def, Option.some.injEq,
    List.head?_eq_some_iff] at h
  obtain ⟨k, ⟨rest, rfl⟩, b, hb, r, -, rfl⟩ := h
  refine ⟨k, rest, b, rfl, hb, ?_⟩
  cases r with
  | true => exact .inl rfl
  | false => exact .inr rfl

theorem splitPoint_isSome {nop : Nat} {f : Function} {k : Nat} {rest : List Nat} {b : Block} (hb : f.blocks[k]? = some b)
    (hne : b.instructions ≠ []) (hassembly : ∀ i ∈ b.instructions, i.assemblyId.isSome) :
    ∃ o, splitPoint nop f (k :: rest) = some o := by
  obtain ⟨r, hr⟩ : ∃ r, isSingleNop nop (k :: rest) b = some r := isSingleNop_isSome hne hassembly
  exact ⟨if r then none else some b.id,
    by simp only [splitPoint, List.head?_cons, hb, hr, Option.bind_eq_bind, Option.bind_some, Option.pure_def]⟩

theorem getElem?_inj {l : List Block} (h : (l.map (·.id)).Nodup) {k k' : Nat} {b b' : Block} (hb : l[k]? = some b)
    (hb' : l[k']? = some b') (hid : b.id = b'.id) : k = k' := by
  have hk : k < (l.map (·.id)).length := by
    rw [List.length_map]
    exact (List.getElem?_eq_some_iff.1 hb).1
  refine (List.getElem?_inj hk h).1 ?_
  rw [List.getElem?_map, List.getElem?_map, hb, hb', Option.map_some, Option.map_some, hid]

/-- The split points of groups that have no block in common are different. -/
theorem gives_points {f : Function} (hids : (f.blocks.map (·.id)).Nodup) {groups : List (List Nat)}
    {points : List (Option Nat)} (hgives : List.Forall₂ (Gives f) groups points) (honce : groups.flatten.Nodup) :
    points.reduceOption.Nodup ∧
      ∀ p ∈ points.reduceOption, ∃ k ∈ groups.flatten, ∃ b, f.blocks[k]? = some b ∧ b.id = p := by
  induction hgives with
  | nil => exact ⟨List.nodup_nil, by simp [List.reduceOption]⟩
  | @cons group o groups points h _ ih =>
    rw [List.flatten_cons, List.nodup_append] at honce
    obtain ⟨-, honce', hdisjoint⟩ := honce
    obtain ⟨hnodup, hfrom⟩ := ih honce'
    have hfrom' : ∀ p ∈ points.reduceOption, ∃ k ∈ (group :: groups).flatten, ∃ b, f.blocks[k]? = some b ∧ b.id = p :=
      fun p hp => by
        obtain ⟨k, hk, hb⟩ := hfrom p hp
        exact ⟨k, List.mem_append_right _ hk, hb⟩
    obtain ⟨k, rest, b, rfl, hb, rfl | rfl⟩ := h
    · exact ⟨hnodup, hfrom'⟩
    · refine ⟨List.nodup_cons.2 ⟨fun hin => ?_, hnodup⟩, List.forall_mem_cons.2 ⟨⟨k, by simp, b, hb, rfl⟩, hfrom'⟩⟩
      obtain ⟨k', hk', b', hb', hid⟩ := hfrom _ hin
      exact hdisjoint k (by simp) k' hk' (getElem?_inj hids hb hb' hid.symm)

theorem visit_splits {nop : Nat} {graph : Graph} {f : Function} (hf : f.WellFormed) (hcount : graph.count = f.blocks.length)
    (hids : (f.blocks.map (·.id)).Nodup) (hassembled : Assembled f.placed) :
    ∃ points, visit nop graph f = some points ∧ points.Nodup ∧
      ∀ p ∈ points, ∃ k b, k ≠ 0 ∧ f.blocks[k]? = some b ∧ b.id = p := by
  have hpos : 0 < graph.count := hcount ▸ List.length_pos_iff.2 hf.nonempty
  obtain ⟨groups, hgroups, hparted⟩ := preorderFull_spec graph hpos le_rfl
  obtain ⟨first, rest, rfl, hfirst⟩ := hparted.first
  have hflat : ∀ k ∈ rest.flatten, k ≠ 0 := by
    rintro k hk rfl
    have honce := hparted.once
    rw [List.flatten_cons, List.nodup_append] at honce
    exact honce.2.2 0 ((hfirst 0).2 .refl) 0 hk rfl
  have hsome : ∀ group ∈ rest.reverse, ∃ o, splitPoint nop f group = some o := by
    intro group hgroup
    have hmem := List.mem_reverse.1 hgroup
    cases hlist : group with
    | nil => exact absurd hlist (hparted.nonempty group (List.mem_cons_of_mem _ hmem))
    | cons k tail =>
      have hk : k < f.blocks.length := by
        have hin : k ∈ (first :: rest).flatten := List.mem_flatten.2 ⟨group, List.mem_cons_of_mem _ hmem, by simp [hlist]⟩
        rw [← hcount]
        exact of_decide_eq_true ((hparted.mem_iff k).1 hin)
      have hb := List.getElem?_eq_getElem hk
      obtain ⟨hne, hassembly⟩ := hassembled _ (List.mem_map_of_mem (List.getElem_mem hk))
      exact splitPoint_isSome hb hne hassembly
  obtain ⟨points, hpoints⟩ := exists_forall₂ hsome
  have honce : rest.reverse.flatten.Nodup := by
    have honce := hparted.once
    rw [List.flatten_cons, List.nodup_append] at honce
    exact ((List.reverse_perm rest).flatten).nodup_iff.2 honce.2.1
  obtain ⟨hnodup, hfrom⟩ := gives_points hids (hpoints.imp fun _ _ h => splitPoint_gives h) honce
  refine ⟨points.reduceOption, ?_, hnodup, fun p hp => ?_⟩
  · simp only [visit, hf.symbol, Bool.false_eq_true, if_false, hgroups, Option.bind_eq_bind, Option.bind_some,
      List.tail_cons, mapM_eq_some_iff.2 hpoints, Option.pure_def]
  · obtain ⟨k, hk, b, hb, hid⟩ := hfrom p hp
    exact ⟨k, b, hflat k (((List.reverse_perm rest).flatten).subset hk), hb, hid⟩

/-- A block behind the first one of a function is an inner one. -/
theorem inner_of_getElem? {A B : List Function} {f : Function} {k : Nat} {b : Block}
    (h : (((A ++ f :: B).flatMap (·.blocks)).map (·.id)).Nodup) (hk : k ≠ 0) (hb : f.blocks[k]? = some b) :
    Inner (A ++ f :: B) b.id := by
  have hmem := List.mem_of_getElem? hb
  refine ⟨mem_ids (by simp) hmem, fun hin => ?_⟩
  obtain ⟨g, hg, hhead⟩ := List.mem_map.1 hin
  obtain ⟨b', hb', hid⟩ := Option.map_eq_some_iff.1 hhead
  rcases List.mem_append.1 hg with hg | hg
  · exact ids_ne h (.inl hg) hmem (List.mem_of_head? hb') hid
  · rcases List.mem_cons.1 hg with rfl | hg
    · rw [List.head?_eq_getElem?] at hb'
      exact hk (getElem?_inj (ids_nodup h) hb hb' hid.symm)
    · exact ids_ne h (.inr hg) hmem (List.mem_of_head? hb') hid

theorem Good.splitPoints_spec {list : FunctionList} {s : State μ} (cfg : ControlFlow μ) (nop : Nat)
    (h : Good list s.functions) (hassembled : Assembled (list.functions.flatMap Function.placed)) :
    ∃ points, splitPoints cfg nop s = some points ∧ points.Nodup ∧ ∀ p ∈ points, Inner s.functions p := by
  have hassembled' : ∀ f ∈ s.functions, Assembled f.placed := fun f hf b hb =>
    hassembled b (h.kept.all.subset (List.mem_flatMap_of_mem hf hb))
  have hlists : ∀ A B, s.functions = A ++ B → ∃ pointLists : List (List Nat),
      B.mapM (fun f => visit nop (cfg.graph s.marks f) f) = some pointLists ∧ pointLists.flatten.Nodup ∧
        ∀ p ∈ pointLists.flatten, Inner s.functions p ∧ p ∈ (B.flatMap (·.blocks)).map (·.id) := by
    intro A B
    induction B generalizing A with
    | nil => exact fun _ => ⟨[], rfl, List.nodup_nil, by simp⟩
    | cons f B ih =>
      intro hfunctions
      obtain ⟨pointLists, hmap, honce, hinner⟩ := ih (A ++ [f]) (by rw [hfunctions, List.append_assoc]; rfl)
      have hmem : f ∈ s.functions := by rw [hfunctions]; simp
      have hids := hfunctions ▸ h.once
      obtain ⟨points, hvisit, hnodup, hpoints⟩ := visit_splits (h.wellFormed f hmem) (cfg.count_eq s.marks f)
        (ids_nodup hids) (hassembled' f hmem)
      refine ⟨points :: pointLists, ?_, ?_, fun p hp => ?_⟩
      · rw [List.mapM_cons, hvisit, hmap]
        rfl
      · refine List.nodup_append.2 ⟨hnodup, honce, ?_⟩
        rintro p hp q hq rfl
        obtain ⟨k, b, -, hb, rfl⟩ := hpoints p hp
        obtain ⟨b', hb', hid⟩ := List.mem_map.1 (hinner _ hq).2
        obtain ⟨g, hg, hbg⟩ := List.mem_flatMap.1 hb'
        exact ids_ne hids (.inr hg) (List.mem_of_getElem? hb) hbg hid
      · rcases List.mem_append.1 (List.flatten_cons ▸ hp) with hp | hp
        · obtain ⟨k, b, hk, hb, rfl⟩ := hpoints p hp
          refine ⟨?_, mem_ids List.mem_cons_self (List.mem_of_getElem? hb)⟩
          rw [hfunctions]
          exact inner_of_getElem? hids hk hb
        · obtain ⟨hin, hrest⟩ := hinner p hp
          refine ⟨hin, ?_⟩
          rw [List.flatMap_cons, List.map_append]
          exact List.mem_append_right _ hrest
  obtain ⟨pointLists, hmap, honce, hinner⟩ := hlists [] s.functions rfl
  exact ⟨pointLists.flatten, by rw [splitPoints, hmap]; rfl, honce, fun p hp => (hinner p hp).1⟩

/-! ## All rounds -/

theorem length_le_ids {functions : List Function} (h : ∀ f ∈ functions, f.WellFormed) :
    functions.length ≤ ((functions.flatMap (·.blocks)).map (·.id)).length := by
  induction functions with
  | nil => exact le_rfl
  | cons f functions ih =>
    have hpos := List.length_pos_iff.2 (h f List.mem_cons_self).nonempty
    have hrest := ih fun g hg => h g (List.mem_cons_of_mem _ hg)
    rw [List.flatMap_cons, List.map_append, List.length_append, List.length_map, List.length_cons]
    omega

/-- As many rounds as there are blocks that do not begin a function yet, and one more. -/
theorem Good.visitList {list : FunctionList} {s : State μ} (cfg : ControlFlow μ) (nop : Nat)
    (nonReturnPass : List Function → μ → μ) (h : Good list s.functions)
    (hassembled : Assembled (list.functions.flatMap Function.placed)) {rounds : Nat}
    (hrounds : ((list.functions.flatMap (·.blocks)).map (·.id)).length ≤ s.functions.length + rounds) :
    ∃ s', visitList harmless cfg nop nonReturnPass (rounds + 1) s = some s' ∧ Good list s'.functions ∧
      splitPoints cfg nop s' = some [] := by
  induction rounds generalizing s with
  | zero =>
    obtain ⟨points, hpoints, honce, hinner⟩ := h.splitPoints_spec cfg nop hassembled
    obtain ⟨s₁, hsplit, hgood, hlen⟩ := h.splitAll honce hinner
    have hbound := (length_le_ids hgood.wellFormed).trans_eq hgood.kept.ids_perm.length_eq
    obtain rfl : points = [] := List.length_eq_zero_iff.1 (by omega)
    exact ⟨s, by rw [SplitFunction.visitList, hpoints]; rfl, h, hpoints⟩
  | succ rounds ih =>
    obtain ⟨points, hpoints, honce, hinner⟩ := h.splitPoints_spec cfg nop hassembled
    cases points with
    | nil => exact ⟨s, by rw [SplitFunction.visitList, hpoints]; rfl, h, hpoints⟩
    | cons p points =>
      obtain ⟨s₁, hsplit, hgood, hlen⟩ := h.splitAll honce hinner
      have hgood' : Good list { s₁ with marks := nonReturnPass s₁.functions s₁.marks }.functions := hgood
      obtain ⟨s', hrun, hs'⟩ := ih hgood' (by
        rw [List.length_cons] at hlen
        simp only [hlen]
        omega)
      refine ⟨s', ?_, hs'⟩
      rw [SplitFunction.visitList, hpoints]
      simp only [Option.bind_eq_bind, Option.bind_some, hsplit, List.isEmpty_cons, Bool.false_eq_true, if_false]
      exact hrun

end Egalito.SplitFunction
