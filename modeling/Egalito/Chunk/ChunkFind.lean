import Egalito.Chunk.SpatialSearch
import Egalito.Lib.Image
/-!
# Instructions found by address

`ChunkFind` of `operation/find.h`, without its containing composites. A function
and a block have the size of their children, which follow one another; so every
address in a function is in one instruction of it.
-/

open Egalito.Lib Egalito.ChunkList

namespace Egalito.ChunkFind

section Spatial

variable {Child : Type} [SizedChild Child] (children : List Child) (target : UInt64)

/-- `CIter::spatial(list)->findContaining(target)` -/
def spatialContaining : Option Child := SpaceMap.findContaining (.ofList children) target.toBitVec

/-- `CIter::spatial(list)->find(target)` -/
def spatialFind : Option Child := SortedMap.find (.ofList children : SpaceMap Child) target.toNat

/-- `CIter::spatial(list)->findAllContaining(target)`, which looks at five children at most. -/
def spatialAllContaining : List Child :=
  (((SortedMap.ofList children : SpaceMap Child).upTo target.toNat).reverse.take 5).filter fun c =>
    (getRange c).contains target.toBitVec

end Spatial

/-- The size of a child, as a number. -/
def extent {Child : Type} [SizedChild Child] (c : Child) : Nat := (SizedChild.getSize c).toNat

/-- The children of a chunk at `address` fill it. -/
def Fill {Child : Type} [SizedChild Child] (address size : UInt64) (children : List Child) : Prop :=
  Consecutive start extent address.toNat children ∧ (children.map extent).sum = size.toNat

structure Instruction where
  address : UInt64
  size : UInt64
deriving DecidableEq

instance : SizedChild Instruction where
  getName _ := ""
  getAddress i := i.address
  getSize i := i.size

structure Block where
  address : UInt64
  size : UInt64
  children : List Instruction
  fill : Fill address size children

instance : SizedChild Block where
  getName _ := ""
  getAddress b := b.address
  getSize b := b.size

structure Function where
  name : String
  address : UInt64
  size : UInt64
  children : List Block
  fill : Fill address size children
  end_lt : address.toNat + size.toNat < 2 ^ 64

instance : SizedChild Function where
  getName f := f.name
  getAddress f := f.address
  getSize f := f.size

structure PLTTrampoline where
  address : UInt64
  size : UInt64

instance : SizedChild PLTTrampoline where
  getName _ := ""
  getAddress p := p.address
  getSize p := p.size

inductive Chunk
  | function (f : Function)
  | block (b : Block)
  | instruction (i : Instruction)
  | plt (p : PLTTrampoline)

def Chunk.getAddress : Chunk → UInt64
  | function f => f.address
  | block b => b.address
  | instruction i => i.address
  | plt p => p.address

/-- `dynamic_cast<Instruction *>` -/
def Chunk.instruction? : Chunk → Option Instruction
  | instruction i => some i
  | _ => none

/-! ## `findImpl` -/

section FindImpl

variable (target : UInt64) (instructionContains : Bool)

def Instruction.findImpl (root : Instruction) : Option Chunk :=
  if instructionContains then
    if (getRange root).contains target.toBitVec then some (.instruction root) else none
  else if root.address = target then some (.instruction root) else none

def Block.findImpl (root : Block) : Option Chunk :=
  match spatialContaining root.children target with
  | some child => child.findImpl target instructionContains
  | none => if root.address = target then some (.block root) else none

def Function.findImpl (root : Function) : Option Chunk :=
  match spatialContaining root.children target with
  | some child => child.findImpl target instructionContains
  | none => if root.address = target then some (.function root) else none

/-- A list of functions has no position of its own. -/
def findImpl (root : List Function) : Option Chunk :=
  match spatialContaining root target with
  | some child => child.findImpl target instructionContains
  | none => none

end FindImpl

/-! ## Every address of a function is in an instruction -/

section Search

variable {Child : Type} [SizedChild Child] {address size target : UInt64} {children : List Child}

theorem getRange_end {c : Child} (h : start c + extent c < 2 ^ 64) : (getRange c).getEnd.toNat = start c + extent c := by
  rw [getRange, Range.getEnd, BitVec.toNat_add, Nat.mod_eq_of_lt]
  · rfl
  · exact h

theorem mem_of_mem_entries {c : Child} (h : c ∈ (SortedMap.ofList children : SpaceMap Child).entries) : c ∈ children := by
  obtain ⟨front, back, rfl, -⟩ := (SortedMap.mem_ofList children).1 h
  simp

theorem spatialFind_spec {c : Child} (h : spatialFind children target = some c) :
    c ∈ children ∧ ChildType.getAddress c = target := by
  obtain ⟨hc, heq⟩ := SortedMap.find_eq_some_iff.1 h
  exact ⟨mem_of_mem_entries hc, UInt64.toNat_inj.1 heq⟩

theorem spatialFind_eq_none_iff : spatialFind children target = none ↔ ∀ c ∈ children, ChildType.getAddress c ≠ target := by
  constructor
  · intro h c hc heq
    obtain ⟨d, hd, hkey⟩ : ∃ d ∈ (SortedMap.ofList children : SpaceMap Child).entries, start d = start c :=
      SortedMap.exists_mem_ofList children hc
    have hfound : spatialFind children target = some d :=
      SortedMap.find_eq_some_iff.2 ⟨hd, hkey.trans (congrArg UInt64.toNat heq)⟩
    rw [h] at hfound
    cases hfound
  · intro h
    rw [← Option.not_isSome_iff_eq_none, Option.isSome_iff_exists]
    rintro ⟨c, hc⟩
    obtain ⟨hmem, heq⟩ := spatialFind_spec hc
    exact h c hmem heq

/-- A child that is found contains the address. -/
theorem spatialContaining_spec {c : Child} (h : spatialContaining children target = some c) :
    c ∈ children ∧ start c ≤ target.toNat ∧ target.toNat < start c + extent c := by
  obtain ⟨hc, hcontains, -⟩ := findContaining_eq_some_iff.1 h
  obtain ⟨hle, hlt⟩ := contains_getRange.1 hcontains
  refine ⟨mem_of_mem_entries hc, hle, hlt.trans_le ?_⟩
  rw [getRange, Range.getEnd, BitVec.toNat_add]
  exact Nat.mod_le _ _

theorem findContaining_of_fill (h : Fill address size children) (hend : address.toNat + size.toNat < 2 ^ 64)
    (hle : address.toNat ≤ target.toNat) (hlt : target.toNat < address.toNat + size.toNat) :
    ∃ c ∈ children, spatialContaining children target = some c ∧ start c ≤ target.toNat ∧
      target.toNat < start c + extent c ∧ start c + extent c ≤ address.toNat + size.toNat := by
  obtain ⟨hcons, hsize⟩ := h
  have hwithin : ∀ c ∈ children, start c + extent c ≤ address.toNat + size.toNat := fun c hc => by
    rw [← hsize]
    exact end_le_of_consecutive hcons hc
  have hrange : ∀ c ∈ children, (getRange c).getEnd.toNat = start c + extent c := fun c hc =>
    getRange_end ((hwithin c hc).trans_lt hend)
  have hpairs := pairwise_of_consecutive hcons
  obtain ⟨c, hc, hcle, hclt⟩ := exists_mem_of_consecutive hcons hle (by omega)
  refine ⟨c, hc, ?_, hcle, hclt, hwithin c hc⟩
  refine (findsContaining_iff ?_).2 ?_ c hc ?_
  · refine hpairs.imp_of_mem fun {x y} hx hy hxy => ?_
    rw [← Bool.not_eq_true, Range.overlaps_iff, hrange x hx, hrange y hy]
    change ¬ (start y < start x + extent x ∧ start x < start y + extent y)
    omega
  · rintro front d back rfl hcontains
    obtain ⟨-, hlt'⟩ := contains_getRange.1 hcontains
    rw [hrange d (by simp)] at hlt'
    have hbelow := (contains_getRange.1 hcontains).1
    rw [List.pairwise_append, List.pairwise_cons] at hpairs
    obtain ⟨-, ⟨hback, -⟩, hfront⟩ := hpairs
    refine ⟨fun e he heq => ?_, fun e he ⟨hde, het⟩ => ?_⟩
    · have := hback e he
      omega
    · rcases List.mem_append.1 he with he | he
      · have := hfront e he d List.mem_cons_self
        omega
      · rcases List.mem_cons.1 he with rfl | he
        · omega
        · have := hback e he
          omega
  · refine contains_getRange.2 ⟨hcle, ?_⟩
    rwa [hrange c hc]

end Search

section Found

variable {f : Function} {target : UInt64}

def Function.instructions (f : Function) : List Instruction := f.children.flatMap Block.children

/-- An instruction of the function starts at the address. -/
def Function.StartsAt (f : Function) (target : UInt64) : Prop := ∃ i ∈ f.instructions, i.address = target

instance (f : Function) (target : UInt64) : Decidable (f.StartsAt target) := inferInstanceAs (Decidable (∃ _ ∈ _, _))

theorem instructions_consecutive (f : Function) : Consecutive start extent f.address.toNat f.instructions :=
  consecutive_flatMap f.fill.1 fun b _ => b.fill

theorem end_le_of_mem_instructions {i : Instruction} (hi : i ∈ f.instructions) :
    start i + extent i ≤ f.address.toNat + f.size.toNat := by
  obtain ⟨b, hb, hi⟩ := List.mem_flatMap.1 hi
  have hblock := end_le_of_consecutive f.fill.1 hb
  have hinstr := end_le_of_consecutive b.fill.1 hi
  rw [f.fill.2] at hblock
  rw [b.fill.2] at hinstr
  exact hinstr.trans hblock

/-- Inside a function the search comes to the instruction that contains the address. -/
theorem findImpl_inside (hle : f.address.toNat ≤ target.toNat) (hlt : target.toNat < f.address.toNat + f.size.toNat) :
    ∃ i ∈ f.instructions, start i ≤ target.toNat ∧ target.toNat < start i + extent i ∧
      ∀ instructionContains, f.findImpl target instructionContains = i.findImpl target instructionContains := by
  have hend := f.end_lt
  obtain ⟨b, hb, hfound, hble, hblt, hbend⟩ := findContaining_of_fill f.fill (by omega) hle hlt
  obtain ⟨i, hi, hfound', hile, hilt, -⟩ := findContaining_of_fill b.fill
    (show start b + extent b < 2 ^ 64 by omega) hble hblt
  refine ⟨i, List.mem_flatMap.2 ⟨b, hb, hi⟩, hile, hilt, fun instructionContains => ?_⟩
  unfold Function.findImpl
  rw [hfound]
  simp only
  unfold Block.findImpl
  rw [hfound']

theorem findImpl_spec (hle : f.address.toNat ≤ target.toNat) (hlt : target.toNat < f.address.toNat + f.size.toNat) :
    ∃ i ∈ f.instructions, f.findImpl target true = some (.instruction i) ∧
      start i ≤ target.toNat ∧ target.toNat < start i + extent i := by
  obtain ⟨i, hi, hile, hilt, hfound⟩ := findImpl_inside hle hlt
  refine ⟨i, hi, ?_, hile, hilt⟩
  have hend := end_le_of_mem_instructions hi
  have hspace := f.end_lt
  have hcontains : (getRange i).contains target.toBitVec = true :=
    contains_getRange.2 ⟨hile, by rw [getRange_end (by omega)]; exact hilt⟩
  rw [hfound]
  unfold Instruction.findImpl
  rw [if_pos rfl, if_pos hcontains]

/-- Outside there is only the address of the function. -/
theorem findImpl_outside (h : ¬ (f.address.toNat ≤ target.toNat ∧ target.toNat < f.address.toNat + f.size.toNat))
    (instructionContains : Bool) :
    f.findImpl target instructionContains = if f.address = target then some (.function f) else none := by
  have hnone : spatialContaining f.children target = none := by
    rw [← Option.not_isSome_iff_eq_none, Option.isSome_iff_exists]
    rintro ⟨b, hb⟩
    obtain ⟨hmem, hle, hlt⟩ := spatialContaining_spec hb
    have hstart : f.address.toNat ≤ start b := start_le_of_consecutive f.fill.1 hmem
    have hend := end_le_of_consecutive f.fill.1 hmem
    rw [f.fill.2] at hend
    exact h ⟨hstart.trans hle, hlt.trans_le hend⟩
  unfold Function.findImpl
  rw [hnone]

/-- An instruction that contains the address is the one that starts there, if any is. -/
theorem address_eq_iff {i : Instruction} (hi : i ∈ f.instructions) (hle : start i ≤ target.toNat)
    (hlt : target.toNat < start i + extent i) : i.address = target ↔ f.StartsAt target := by
  refine ⟨fun heq => ⟨i, hi, heq⟩, fun ⟨j, hj, hjt⟩ => ?_⟩
  by_contra hne
  have hji : j ≠ i := fun h => hne (h ▸ hjt)
  have hstart : start j = target.toNat := congrArg UInt64.toNat hjt
  have hile' : start i ≠ target.toNat := fun h => hne (UInt64.toNat_inj.1 h)
  rcases apart_of_consecutive (instructions_consecutive f) hj hi hji with hapart | hapart
  · omega
  · omega

/-- The instruction that is found starts at the address exactly when some instruction does. -/
theorem findImpl_address (hle : f.address.toNat ≤ target.toNat)
    (hlt : target.toNat < f.address.toNat + f.size.toNat) :
    ∃ i, f.findImpl target true = some (.instruction i) ∧ (i.address = target ↔ f.StartsAt target) := by
  obtain ⟨i, hi, hfound, hile, hilt⟩ := findImpl_spec hle hlt
  exact ⟨i, hfound, address_eq_iff hi hile hilt⟩

/-- The first instruction of a function starts where the function does. -/
theorem startsAt_address (hpos : 0 < f.size.toNat) : f.StartsAt f.address := by
  obtain ⟨i, hi, -, hile, -⟩ := @findImpl_spec f f.address le_rfl (by omega)
  have hle : f.address.toNat ≤ start i := start_le_of_consecutive (instructions_consecutive f) hi
  exact ⟨i, hi, UInt64.toNat_inj.1 (Nat.le_antisymm hile hle)⟩

end Found

end Egalito.ChunkFind
