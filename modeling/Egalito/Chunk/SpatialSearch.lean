import Egalito.Chunk.ChunkList
import Egalito.IntervalTree.Range
import Egalito.Lib.Ordered
import Egalito.Lib.SortedMap
/-!
# Searches in a `SpatialChunkList`

`chunk/chunklist.h`. The map from addresses to children is ordered; the searches
by range start at a bound in it and look at neighbours.
-/

open Egalito.Lib

namespace Egalito.ChunkList

open ChildType

/-- A `ChildType` with a size. -/
class SizedChild (Child : Type) extends ChildType Child where
  getSize : Child → UInt64

section Map

variable {Child : Type} [ChildType Child]

/-- The addresses of children, in their order. -/
def start (c : Child) : Nat := (getAddress c).toNat

theorem start_injective {c d : Child} : start c = start d ↔ getAddress c = getAddress d := UInt64.toNat_inj

/-- `std::map<address_t, ChildType *>` -/
abbrev SpaceMap (Child : Type) [ChildType Child] := SortedMap (start : Child → Nat)

/-- The map as its look-ups by address see it. -/
def SpaceMap.spatial (m : SpaceMap Child) : SpatialChunkList Child := ⟨fun address => m.find address.toNat⟩

variable (m : SpaceMap Child) (c : Child)

theorem spatial_empty : SpaceMap.spatial (.empty : SpaceMap Child) = .empty := rfl

theorem spatial_put : SpaceMap.spatial (m.put c) = (SpaceMap.spatial m).add c := by
  rw [SpaceMap.spatial, SpatialChunkList.add, addKeyed]
  congr 1
  funext address
  apply Option.ext
  intro d
  rw [Function.update_apply, SortedMap.find_eq_some_iff, SortedMap.mem_put]
  split
  · rename_i h
    rw [Option.some.injEq, h]
    constructor
    · rintro ⟨rfl | ⟨-, hne⟩, heq⟩
      · rfl
      · exact absurd heq hne
    · rintro rfl
      exact ⟨.inl rfl, rfl⟩
  · rename_i h
    rw [SpaceMap.spatial, SortedMap.find_eq_some_iff]
    constructor
    · rintro ⟨rfl | ⟨hd, -⟩, heq⟩
      · exact absurd (UInt64.toNat_inj.1 heq).symm h
      · exact ⟨hd, heq⟩
    · rintro ⟨hd, heq⟩
      refine ⟨.inr ⟨hd, fun hs => h ?_⟩, heq⟩
      exact UInt64.toNat_inj.1 (heq.symm.trans hs)

theorem spatial_erase : SpaceMap.spatial (m.erase (start c)) = (SpaceMap.spatial m).remove c := by
  rw [SpaceMap.spatial, SpatialChunkList.remove, removeKeyed]
  congr 1
  funext address
  apply Option.ext
  intro d
  rw [Function.update_apply, SortedMap.find_eq_some_iff, SortedMap.mem_erase]
  split
  · rename_i h
    rw [h]
    simp only [reduceCtorEq, iff_false, not_and]
    exact fun ⟨_, hne⟩ heq => hne heq
  · rename_i h
    rw [SpaceMap.spatial, SortedMap.find_eq_some_iff, and_assoc]
    refine and_congr_right fun _ => and_iff_right_of_imp fun heq hs => h ?_
    exact UInt64.toNat_inj.1 (heq.symm.trans hs)

/-- The map made of a list of children is the one that `createSpatial` makes. -/
theorem spatial_ofList (l : ChunkListImpl Child) : SpaceMap.spatial (.ofList l.iterable) = l.createSpatial := by
  rw [ChunkListImpl.createSpatial, SortedMap.ofList, ← spatial_empty]
  exact (List.foldl_hom SpaceMap.spatial fun m c => (spatial_put m c).symm).symm

end Map

/-! ## The searches -/

variable {Child : Type} [SizedChild Child]

def getRange (c : Child) : Range := ⟨(getAddress c).toBitVec, (SizedChild.getSize c).toBitVec⟩

def SpaceMap.findContaining (m : SpaceMap Child) (address : Address) : Option Child :=
  match (m.upTo address.toNat).getLast? with
  | none => none
  | some c => if (getRange c).contains address then some c else none

/-- The loop ends at the first child that is not inside. -/
def SpaceMap.findAllWithin (m : SpaceMap Child) (range : Range) : List Child :=
  (m.above range.start.toNat).takeWhile fun c => range.containsRange (getRange c)

variable {m : SpaceMap Child} {c : Child} {address : Address} {range : Range}

theorem contains_getRange : (getRange c).contains address = true ↔
    start c ≤ address.toNat ∧ address.toNat < (getRange c).getEnd.toNat := Range.contains_iff

theorem findContaining_eq_some_iff : m.findContaining address = some c ↔ c ∈ m.entries ∧
    (getRange c).contains address ∧ ∀ d ∈ m.entries, start d ≤ address.toNat → start d ≤ start c := by
  rw [SpaceMap.findContaining]
  constructor
  · intro h
    split at h
    · cases h
    · rename_i d hd
      split at h
      · rename_i hcontains
        obtain rfl := Option.some.inj h
        obtain ⟨hmem, -, hmax⟩ := SortedMap.getLast?_upTo.1 hd
        exact ⟨hmem, hcontains, hmax⟩
      · cases h
  · rintro ⟨hmem, hcontains, hmax⟩
    rw [SortedMap.getLast?_upTo.2 ⟨hmem, (contains_getRange.1 hcontains).1, hmax⟩]
    exact if_pos hcontains

theorem mem_findAllWithin : c ∈ m.findAllWithin range ↔ c ∈ m.entries ∧ range.start.toNat < start c ∧
    ∀ d ∈ m.entries, range.start.toNat < start d → start d ≤ start c → range.containsRange (getRange d) :=
  SortedMap.mem_takeWhile_above

/-! ## What the searches are to find -/

section Exact

variable (chunks : List Child)

/-- All the children inside the range, each once. -/
def FindsAllWithin (range : Range) : Prop :=
  (SpaceMap.findAllWithin (.ofList chunks) range).Perm (chunks.filter fun c => range.containsRange (getRange c))

def FindsContaining (address : Address) : Prop :=
  ∀ c ∈ chunks, (getRange c).contains address → SpaceMap.findContaining (.ofList chunks) address = some c

/-- No child that is inside the range starts where it does, or behind a child that starts
inside the range and ends outside. -/
def StartInside (range : Range) : Prop :=
  ∀ c ∈ chunks, range.containsRange (getRange c) → range.start.toNat < start c ∧
    ∀ d ∈ chunks, range.start.toNat < start d → start d < start c → range.containsRange (getRange d)

/-- No child takes the place of the one at the address: none is put in later at the start
of it, none starts between its start and the address. -/
def Undisturbed (address : Address) : Prop :=
  ∀ front c back, chunks = front ++ c :: back → (getRange c).contains address →
    (∀ d ∈ back, start d ≠ start c) ∧ ∀ d ∈ chunks, ¬ (start c < start d ∧ start d ≤ address.toNat)

variable {chunks}

theorem mem_ofList_of_distinct (h : chunks.Pairwise fun c d => getAddress c ≠ getAddress d) :
    c ∈ (SortedMap.ofList chunks : SpaceMap Child).entries ↔ c ∈ chunks := by
  rw [SortedMap.mem_ofList]
  constructor
  · rintro ⟨front, back, rfl, -⟩
    simp
  · intro hc
    obtain ⟨front, back, rfl⟩ := List.append_of_mem hc
    refine ⟨front, back, rfl, fun d hd heq => ?_⟩
    exact pairwise_iff_split.1 h front c back rfl d hd (start_injective.1 heq).symm

theorem findsAllWithin_iff (h : chunks.Pairwise fun c d => getAddress c ≠ getAddress d) :
    FindsAllWithin chunks range ↔ StartInside chunks range := by
  have hnodup : chunks.Nodup := h.imp fun hne heq => hne (congrArg _ heq)
  have hfound : (SpaceMap.findAllWithin (.ofList chunks) range).Nodup :=
    (((SortedMap.sorted _).imp fun hlt heq => hlt.ne (congrArg _ heq)).filter _).sublist (List.takeWhile_sublist _)
  rw [FindsAllWithin, List.perm_ext_iff_of_nodup hfound (hnodup.filter _)]
  simp only [mem_findAllWithin, mem_ofList_of_distinct h, List.mem_filter]
  constructor
  · intro hsame c hc hinside
    obtain ⟨-, hlt, hall⟩ := (hsame c).2 ⟨hc, hinside⟩
    exact ⟨hlt, fun d hd hstart hdc => hall d hd hstart hdc.le⟩
  · intro hstart c
    constructor
    · exact fun ⟨hc, hlt, hall⟩ => ⟨hc, hall c hc hlt le_rfl⟩
    · rintro ⟨hc, hinside⟩
      obtain ⟨hlt, hall⟩ := hstart c hc hinside
      refine ⟨hc, hlt, fun d hd hds hdc => ?_⟩
      rcases hdc.lt_or_eq with hdc | hdc
      · exact hall d hd hds hdc
      · have hdc : d = c := SortedMap.eq_of_key ((mem_ofList_of_distinct h).2 hd) ((mem_ofList_of_distinct h).2 hc) hdc
        rwa [hdc]

theorem findsContaining_iff (h : chunks.Pairwise fun c d => (getRange c).overlaps (getRange d) = false) :
    FindsContaining chunks address ↔ Undisturbed chunks address := by
  constructor
  · rintro hfinds front c back rfl hcontains
    obtain ⟨hmem, -, hmax⟩ := findContaining_eq_some_iff.1 (hfinds c (by simp) hcontains)
    have hback : c ∉ back := fun hc => by
      have := pairwise_iff_split.1 h front c back rfl c hc
      rw [← Bool.not_eq_true, Range.overlaps_iff] at this
      obtain ⟨hle, hlt⟩ := contains_getRange.1 hcontains
      exact this ⟨hle.trans_lt hlt, hle.trans_lt hlt⟩
    refine ⟨SortedMap.ne_of_mem_ofList hmem hback, fun d hd ⟨hlt, hle⟩ => ?_⟩
    obtain ⟨e, he, hed⟩ : ∃ e ∈ (SortedMap.ofList (front ++ c :: back) : SpaceMap Child).entries, start e = start d :=
      SortedMap.exists_mem_ofList _ hd
    have := hmax e he (by omega)
    omega
  · intro hall c hc hcontains
    obtain ⟨front, back, rfl⟩ := List.append_of_mem hc
    obtain ⟨hback, hbetween⟩ := hall front c back rfl hcontains
    refine findContaining_eq_some_iff.2 ⟨(SortedMap.mem_ofList _).2 ⟨front, back, rfl, hback⟩, hcontains, fun d hd hle => ?_⟩
    obtain ⟨front', back', heq, -⟩ := (SortedMap.mem_ofList _).1 hd
    have := hbetween d (by rw [heq]; simp)
    omega

/-- The searches find what they should exactly when the first child is not at the start of the
range and no child is in the way. -/
theorem searches_exact (chunks : List Child) :
    (chunks.Pairwise (fun c d => getAddress c ≠ getAddress d) →
      ∀ range, FindsAllWithin chunks range ↔ StartInside chunks range) ∧
    (chunks.Pairwise (fun c d => (getRange c).overlaps (getRange d) = false) →
      ∀ address, FindsContaining chunks address ↔ Undisturbed chunks address) :=
  ⟨fun h _ => findsAllWithin_iff h, fun h _ => findsContaining_iff h⟩

end Exact

/-! ## Two functions -/

structure Extent where
  address : UInt64
  size : UInt64
deriving DecidableEq

instance : SizedChild Extent where
  getName _ := ""
  getAddress e := e.address
  getSize e := e.size

/-- Two functions apart, and a range that begins in front of the first. -/
theorem searches_exact_two : FindsAllWithin [(⟨0x1000, 0x10⟩ : Extent), ⟨0x1010, 0x20⟩] ⟨0xff0, 0x30⟩ ∧
    FindsContaining [(⟨0x1000, 0x10⟩ : Extent), ⟨0x1010, 0x20⟩] 0x1018 := by
  refine ⟨((searches_exact _).1 (by decide) _).2 ?_, ((searches_exact _).2 (by decide) _).2 ?_⟩
  · unfold StartInside
    decide
  · intro front c back heq hcontains
    match front, heq with
    | [], heq =>
      obtain ⟨rfl, -⟩ := List.cons.inj heq
      exact absurd hcontains (by decide)
    | [_], heq =>
      obtain ⟨rfl, rfl⟩ := List.cons.inj (List.cons.inj heq).2
      decide
    | _ :: _ :: front, heq => simp at heq

/-- A function that is the range is not found in it, and one that begins where an empty one
was put in later is not found at its start. -/
theorem function_not_found : ¬ FindsAllWithin [(⟨0x1000, 0x10⟩ : Extent)] ⟨0x1000, 0x10⟩ ∧
    ¬ FindsContaining [(⟨0x1000, 0x10⟩ : Extent), ⟨0x1000, 0⟩] 0x1000 := by
  constructor
  · unfold FindsAllWithin
    decide +kernel
  · intro h
    have := h ⟨0x1000, 0x10⟩ (by decide) (by decide)
    revert this
    decide +kernel

end Egalito.ChunkList
