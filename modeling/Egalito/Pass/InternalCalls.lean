import Egalito.Chunk.ChunkFind
/-!
# Resolving calls and jumps inside of a module

`pass/internalcalls.cpp`: the target of a control flow instruction is looked for
among the starts of functions, then in its own function, and at last in a few
functions around it.
-/

open Egalito.Lib Egalito.ChunkList Egalito.ChunkFind

namespace Egalito.InternalCalls

/-! ## The pass -/

/-- A function of the module; functions are told apart by their number. -/
structure ModuleFunction extends ChunkFind.Function where
  id : Nat

instance : SizedChild ModuleFunction where
  getName f := f.name
  getAddress f := f.address
  getSize f := f.size

/-- The functions, which may lie over one another, and the first byte of the data of an
instruction. -/
structure Module where
  functions : List ModuleFunction
  ids : (functions.map (·.id)).Nodup
  firstByte : ChunkFind.Instruction → UInt8

inductive Scope
  | externalJump
  | internalJump
deriving DecidableEq

/-- A chunk that was found, and the function it belongs to. -/
structure Found where
  owner : ModuleFunction
  chunk : Chunk

inductive Link
  | unresolved (address : UInt64)
  | normal (target : Found) (scope : Scope)
  | offset (target : Found) (distance : UInt64) (scope : Scope)

def Link.getTargetAddress : Link → UInt64
  | unresolved address => address
  | normal target _ => target.chunk.getAddress
  | offset target distance _ => target.chunk.getAddress + distance

def Link.getTarget : Link → Option Found
  | unresolved _ => none
  | normal target _ => some target
  | offset target _ _ => some target

section Visit

variable (x86_64 : Bool) (m : Module) (function : ModuleFunction) (targetAddress : UInt64)

/-- `found != function` -/
def Found.differs (found : Found) : Bool :=
  match found.chunk with
  | .function _ => found.owner.id ≠ function.id
  | _ => true

def findFunction : Option (Found × Bool) :=
  (spatialFind m.functions targetAddress).map fun f =>
    let found : Found := ⟨f, .function f.toFunction⟩
    (found, found.differs function)

/-- On x86_64 there are jumps into an instruction, which skip its `lock` prefix. -/
def findInside : Option (Found × Bool) :=
  (function.findImpl targetAddress x86_64).map fun chunk => (⟨function, chunk⟩, false)

def findNearby : Option (Found × Bool) :=
  (spatialAllContaining m.functions targetAddress).findSome? fun f =>
    (f.findImpl targetAddress false).map fun chunk =>
      let found : Found := ⟨f, chunk⟩
      (found, found.differs function)

/-- The three searches, each with whether the link is external. -/
def find : Option (Found × Bool) :=
  (findFunction m function targetAddress).or
    ((findInside x86_64 function targetAddress).or (findNearby m function targetAddress))

/-- The new link for what was found; `none` keeps the old one. -/
def makeLink (found : Found) (isExternal : Bool) : Option Link :=
  let scope := if isExternal then Scope.externalJump else .internalJump
  if x86_64 then
    let offset := targetAddress - found.chunk.getAddress
    if offset = 0 then some (.normal found scope)
    else match found.chunk.instruction? with
      | some i => if offset = 1 ∧ m.firstByte i = 0xf0 then some (.offset found 1 scope) else none
      | none => none
  else some (.normal found scope)

/-- The link of an instruction of the function after the visit. -/
def visit (controlFlow : Bool) (link : Option Link) : Option Link :=
  match link with
  | none => none
  | some link =>
    if link.getTarget.isSome then some link
    else if !controlFlow then some link
    else match find x86_64 m function link.getTargetAddress with
      | some (found, isExternal) => (makeLink x86_64 m link.getTargetAddress found isExternal).getD link
      | none => some link

end Visit

/-! ## Links that are resolved right -/

section Right

variable (x86_64 : Bool) (m : Module) (function : ModuleFunction) (targetAddress : UInt64)

/-- The new link has a target, at the same address, and is external when that is not part of the function. -/
def ResolvesRight : Prop :=
  ∃ link target, visit x86_64 m function true (some (.unresolved targetAddress)) = some link ∧
    link.getTarget = some target ∧ link.getTargetAddress = targetAddress ∧
    (link = .normal target .externalJump ∨ link = .offset target 1 .externalJump ↔ target.owner.id ≠ function.id)

end Right

/-- The address is in the function. -/
def Covers (f : ModuleFunction) (address : UInt64) : Prop :=
  f.address.toNat ≤ address.toNat ∧ address.toNat < f.address.toNat + f.size.toNat

/-- An instruction of the function starts at the address, inside of it. -/
def Holds (f : ModuleFunction) (address : UInt64) : Prop := Covers f address ∧ f.StartsAt address

/-- The address is one behind the start of an instruction that has a `lock` prefix. -/
def SkipsLock (m : Module) (f : ModuleFunction) (address : UInt64) : Prop :=
  ∃ i ∈ f.instructions, start i + 1 = address.toNat ∧ address.toNat < start i + extent i ∧ m.firstByte i = 0xf0

/-- The functions as the map by address has them: of those with one start, the last. -/
def mapped (m : Module) : List ModuleFunction := (SortedMap.ofList m.functions : SpaceMap ModuleFunction).entries

/-- One of the five functions of the map that start last, up to the address, holds it. -/
def HeldNearby (m : Module) (address : UInt64) : Prop :=
  ∃ f ∈ mapped m, Holds f address ∧
    ((mapped m).filter fun g => start f < start g ∧ start g ≤ address.toNat).length < 5

/-- Where the search finds the target: a function starts there, or an instruction of the function itself, or the
`lock` prefix of one is skipped (on x86_64), or the target is outside (on x86_64; elsewhere no instruction of the
function starts there) and one of the functions nearby holds it. -/
def Reachable (x86_64 : Bool) (m : Module) (function : ModuleFunction) (address : UInt64) : Prop :=
  (∃ f ∈ m.functions, f.address = address) ∨ Holds function address ∨
    x86_64 = true ∧ SkipsLock m function address ∨
    (x86_64 = true → ¬ Covers function address) ∧ HeldNearby m address

/-! ## The searches -/

section Searches

variable {x86_64 : Bool} {m : Module} {function f : ModuleFunction} {address : UInt64}

theorem findFunction_eq_none_iff :
    findFunction m function address = none ↔ ¬ ∃ f ∈ m.functions, f.address = address := by
  rw [findFunction, Option.map_eq_none_iff, spatialFind_eq_none_iff]
  push Not
  exact Iff.rfl

theorem findFunction_eq_some {r : Found × Bool} (h : findFunction m function address = some r) :
    ∃ f, r = (⟨f, .function f.toFunction⟩, decide (f.id ≠ function.id)) ∧ f.address = address := by
  obtain ⟨f, hf, rfl⟩ := Option.map_eq_some_iff.1 h
  exact ⟨f, rfl, (spatialFind_spec hf).2⟩

/-- Where no function starts, an exact search in one finds its instruction there. -/
theorem findExact_eq (hne : f.address ≠ address) : f.findImpl address false = none ∧ ¬ Holds f address ∨
    Holds f address ∧ ∃ i, i.address = address ∧ f.findImpl address false = some (.instruction i) := by
  by_cases hcovers : Covers f address
  · obtain ⟨i, hi, hle, hlt, hfound⟩ := findImpl_inside hcovers.1 hcovers.2
    have hiff := address_eq_iff hi hle hlt
    rw [hfound, Instruction.findImpl, if_neg (by simp)]
    by_cases haddr : i.address = address
    · exact .inr ⟨⟨hcovers, hiff.1 haddr⟩, i, haddr, if_pos haddr⟩
    · exact .inl ⟨if_neg haddr, fun h => haddr (hiff.2 h.2)⟩
  · refine .inl ⟨?_, fun h => hcovers h.1⟩
    rw [findImpl_outside hcovers, if_neg hne]

theorem mem_spatialAllContaining : f ∈ spatialAllContaining m.functions address ↔ f ∈ mapped m ∧ Covers f address ∧
    ((mapped m).filter fun g => start f < start g ∧ start g ≤ address.toNat).length < 5 := by
  have hcontains : (getRange f).contains address.toBitVec = true ↔ Covers f address := by
    have hend : (getRange f).getEnd.toNat = f.address.toNat + f.size.toNat := getRange_end f.end_lt
    rw [contains_getRange, hend]
    exact Iff.rfl
  unfold spatialAllContaining mapped SortedMap.upTo
  rw [List.mem_filter, SortedMap.mem_take_reverse_iff ((SortedMap.sorted _).filter _), List.mem_filter,
    List.filter_filter, hcontains]
  have hle : Covers f address → start f ≤ address.toNat := fun h => h.1
  simp only [Bool.decide_and, decide_eq_true_eq]
  tauto

theorem findNearby_eq (hne : ∀ f ∈ m.functions, f.address ≠ address) :
    findNearby m function address = none ∧ ¬ HeldNearby m address ∨
      HeldNearby m address ∧ ∃ f ∈ m.functions, Holds f address ∧ ∃ i, i.address = address ∧
        findNearby m function address = some (⟨f, .instruction i⟩, true) := by
  have hmem : ∀ f ∈ mapped m, f ∈ m.functions := fun f hf => mem_of_mem_entries hf
  cases hfind : findNearby m function address with
  | none =>
    refine .inl ⟨rfl, ?_⟩
    rintro ⟨f, hf, hholds, hcount⟩
    have hnone := List.findSome?_eq_none_iff.1 hfind f (mem_spatialAllContaining.2 ⟨hf, hholds.1, hcount⟩)
    rw [Option.map_eq_none_iff] at hnone
    rcases findExact_eq (hne f (hmem f hf)) with ⟨-, hnot⟩ | ⟨-, i, -, hsome⟩
    · exact hnot hholds
    · rw [hsome] at hnone
      cases hnone
  | some r =>
    obtain ⟨f, hf, hr⟩ := List.exists_of_findSome?_eq_some hfind
    obtain ⟨hmapped, -, hcount⟩ := mem_spatialAllContaining.1 hf
    rcases findExact_eq (hne f (hmem f hmapped)) with ⟨hnone, -⟩ | ⟨hholds, i, haddr, hsome⟩
    · rw [hnone] at hr
      cases hr
    · rw [hsome] at hr
      cases hr
      exact .inr ⟨⟨f, hmapped, hholds, hcount⟩, f, hmem f hmapped, hholds, i, haddr, rfl⟩

end Searches

/-! ## The visit -/

section Visits

variable {x86_64 : Bool} {m : Module} {function : ModuleFunction} {address : UInt64} {found : Found} {isExternal : Bool}

/-- What a visit does with what was found at the address itself. -/
theorem right_of_exact (hfind : find x86_64 m function address = some (found, isExternal))
    (haddr : found.chunk.getAddress = address) (hext : isExternal = true ↔ found.owner.id ≠ function.id) :
    ResolvesRight x86_64 m function address := by
  refine ⟨.normal found (if isExternal then .externalJump else .internalJump), found, ?_, rfl, haddr, ?_⟩
  · simp [visit, Link.getTarget, Link.getTargetAddress, hfind, makeLink, haddr]
  · rw [← hext]
    cases isExternal <;> simp

theorem not_right_of_kept (h : visit x86_64 m function true (some (.unresolved address)) = some (.unresolved address)) :
    ¬ ResolvesRight x86_64 m function address := by
  rintro ⟨link, target, hvisit, htarget, -⟩
  cases hvisit.symm.trans h
  cases htarget

theorem not_right_of_none (hfind : find x86_64 m function address = none) : ¬ ResolvesRight x86_64 m function address := by
  refine not_right_of_kept ?_
  simp [visit, Link.getTarget, Link.getTargetAddress, hfind]

theorem sub_eq_one_iff {a b : UInt64} (h : b.toNat ≤ a.toNat) : a - b = 1 ↔ b.toNat + 1 = a.toNat := by
  rw [← UInt64.toNat_inj, UInt64.toNat_sub_of_le _ _ (UInt64.le_iff_toNat_le.2 h)]
  change _ = 1 ↔ _
  omega

/-- Of an instruction that contains the address behind its start only the `lock` prefix may be skipped. -/
theorem right_middle_iff {i : ChunkFind.Instruction} (hi : i ∈ function.instructions)
    (hfind : find true m function address = some (⟨function, .instruction i⟩, false))
    (hle : start i ≤ address.toNat) (hlt : address.toNat < start i + extent i) (hne : i.address ≠ address) :
    ResolvesRight true m function address ↔ SkipsLock m function address := by
  have hzero : address - i.address ≠ 0 := fun h => hne (by rw [← UInt64.sub_add_cancel address i.address, h, UInt64.zero_add])
  have hone : address - i.address = 1 ↔ start i + 1 = address.toNat := sub_eq_one_iff hle
  have hvisit : visit true m function true (some (.unresolved address)) =
      some (if address - i.address = 1 ∧ m.firstByte i = 0xf0 then
        .offset ⟨function, .instruction i⟩ 1 .internalJump else .unresolved address) := by
    simp only [visit, Link.getTarget, Link.getTargetAddress, hfind, makeLink, Chunk.getAddress, Chunk.instruction?,
      Option.isSome_none, Bool.not_true, Bool.false_eq_true, if_true, if_false, if_neg hzero]
    split_ifs <;> rfl
  by_cases hlock : address - i.address = 1 ∧ m.firstByte i = 0xf0
  · rw [if_pos hlock] at hvisit
    refine iff_of_true ⟨_, _, hvisit, rfl, ?_, by simp⟩ ⟨i, hi, hone.1 hlock.1, hlt, hlock.2⟩
    change i.address + 1 = address
    rw [← hlock.1, UInt64.add_comm, UInt64.sub_add_cancel]
  · rw [if_neg hlock] at hvisit
    refine iff_of_false (not_right_of_kept hvisit) ?_
    rintro ⟨j, hj, hstart, hend, hbyte⟩
    have hji : j = i := by
      by_contra hji
      rcases apart_of_consecutive (instructions_consecutive function.toFunction) hj hi hji with h | h <;> omega
    subst hji
    exact hlock ⟨hone.2 hstart, hbyte⟩

end Visits

/-- The search comes to the target with the right scope, if and only if a function of the module starts there, or an
instruction of the function itself, or its `lock` prefix is skipped, or no instruction of the function contains the
target and one of the five mapped functions that start last before it does have an instruction there. -/
theorem internal_calls_iff (x86_64 : Bool) (m : Module) (function : {f // f ∈ m.functions}) (address : UInt64) :
    ResolvesRight x86_64 m function address ↔ Reachable x86_64 m function address := by
  obtain ⟨function, hfunction⟩ := function
  unfold Reachable
  cases hfirst : findFunction m function address with
  | some r =>
    obtain ⟨f, rfl, haddr⟩ := findFunction_eq_some hfirst
    have hstarts : ∃ f ∈ m.functions, f.address = address := by
      by_contra h
      rw [findFunction_eq_none_iff.2 h] at hfirst
      cases hfirst
    have hfind : find x86_64 m function address =
        some (⟨f, .function f.toFunction⟩, decide (f.id ≠ function.id)) := by
      rw [find, hfirst]
      rfl
    exact iff_of_true (right_of_exact hfind haddr (by simp)) (.inl hstarts)
  | none =>
    have hno := findFunction_eq_none_iff.1 hfirst
    have hne : ∀ f ∈ m.functions, f.address ≠ address := fun f hf heq => hno ⟨f, hf, heq⟩
    have hfind : find x86_64 m function address =
        (findInside x86_64 function address).or (findNearby m function address) := by
      rw [find, hfirst]
      rfl
    rw [or_iff_right hno]
    -- what the last search makes of a target that the function does not hold
    have hlast (hnot : ¬ Holds function address) (hinside : findInside x86_64 function address = none) :
        ResolvesRight x86_64 m function address ↔ HeldNearby m address := by
      rw [hinside, Option.none_or] at hfind
      rcases @findNearby_eq m function address hne with ⟨hnone, hheld⟩ | ⟨hheld, f, hf, hholds, i, haddr, hsome⟩
      · exact iff_of_false (not_right_of_none (hfind.trans hnone)) hheld
      · refine iff_of_true (right_of_exact (hfind.trans hsome) haddr ?_) hheld
        refine iff_of_true rfl fun hid => hnot ?_
        have heq : f = function := List.inj_on_of_nodup_map m.ids hf hfunction hid
        exact heq ▸ hholds
    cases x86_64 with
    | false =>
      rcases findExact_eq (hne function hfunction) with ⟨hnone, hnot⟩ | ⟨hholds, i, haddr, hsome⟩
      · rw [hlast hnot (by rw [findInside, hnone]; rfl)]
        simp [hnot]
      · have hinside : find false m function address = some (⟨function, .instruction i⟩, false) := by
          rw [hfind, findInside, hsome]
          rfl
        exact iff_of_true (right_of_exact hinside haddr (by simp)) (.inl hholds)
    | true =>
      by_cases hcovers : Covers function address
      · obtain ⟨i, hi, hfound, hle, hlt⟩ := findImpl_spec hcovers.1 hcovers.2
        have hinside : find true m function address = some (⟨function, .instruction i⟩, false) := by
          rw [hfind, findInside, hfound]
          rfl
        have hiff := address_eq_iff hi hle hlt
        by_cases haddr : i.address = address
        · exact iff_of_true (right_of_exact hinside haddr (by simp)) (.inl ⟨hcovers, hiff.1 haddr⟩)
        · have hnot : ¬ Holds function address := fun h => haddr (hiff.2 h.2)
          rw [right_middle_iff hi hinside hle hlt haddr]
          simp [hnot, hcovers]
      · have hnot : ¬ Holds function address := fun h => hcovers h.1
        have hskip : ¬ SkipsLock m function address := by
          rintro ⟨i, hi, hstart, hend, -⟩
          have hle : function.address.toNat ≤ start i :=
            start_le_of_consecutive (instructions_consecutive function.toFunction) hi
          have hend' := end_le_of_mem_instructions hi
          exact hcovers ⟨by omega, by omega⟩
        rw [hlast hnot (by rw [findInside, findImpl_outside hcovers, if_neg (hne function hfunction)]; rfl)]
        simp [hnot, hskip, hcovers]

/-- An instruction of four bytes, and a function that lies over it with one that starts in its middle. -/
def overlappingFunctions : Module where
  functions :=
    [⟨⟨"f", 0x1000, 4, [⟨0x1000, 4, [⟨0x1000, 4⟩], ⟨rfl, trivial⟩, rfl⟩], ⟨⟨rfl, trivial⟩, rfl⟩, by decide⟩, 0⟩,
      ⟨⟨"g", 0x1001, 4, [⟨0x1001, 4, [⟨0x1001, 1⟩, ⟨0x1002, 3⟩], ⟨rfl, rfl, trivial⟩, rfl⟩], ⟨⟨rfl, trivial⟩, rfl⟩,
        by decide⟩, 1⟩]
  ids := by decide
  firstByte _ := 0x90

theorem instruction_in_the_middle : ∃ function ∈ overlappingFunctions.functions,
    (∃ g ∈ overlappingFunctions.functions, g.StartsAt 0x1002) ∧
      ¬ ResolvesRight true overlappingFunctions function 0x1002 := by
  refine ⟨_, List.mem_cons_self, ⟨_, List.mem_cons_of_mem _ List.mem_cons_self, by decide⟩, ?_⟩
  refine not_right_of_kept ?_
  rfl

end Egalito.InternalCalls
