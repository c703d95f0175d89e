import Egalito.Lib.Run
import Mathlib.Data.BitVec
import Mathlib.Data.List.TakeWhile
/-!
# Merging two modules

`TwocodeMergePass` of `pass/twocodemerge.cpp`: the functions of the other module that
the target module has too get their links redirected, are renamed and moved. The
links are changed while the function is scanned. `none` is a failed assertion, a
thrown string or a null pointer.
-/

open Egalito.Lib

namespace Egalito.Pass.TwocodeMerge

/-! ## The modules -/

inductive SectionType
  | unknown
  | bss
  | data
  | code
  | initArray
  | finiArray
  | dynamic
deriving DecidableEq

/-- The classes of links that the pass tells apart; a normal link is to a function or to another chunk. -/
inductive Link (F P S : Type) where
  | absoluteNormalLink (scope : BitVec 3)
  | normalLink (target : Option F) (scope : BitVec 3)
  | pltLink (originalAddress : BitVec 64) (pltTrampoline : P)
  | absoluteDataLink (scope : BitVec 3)
  | dataOffsetLink (section_ : S) (target addend : BitVec 64) (scope : BitVec 3)
  | immAndDispLink
  | otherLink (scope : BitVec 3)
deriving DecidableEq

/-- `SCOPE_WITHIN_FUNCTION`. -/
def withinFunction : BitVec 3 := 1

/-- `SCOPE_WITHIN_MODULE`, the scope of a `PLTLink`. -/
def withinModule : BitVec 3 := 4

structure Module (F R : Type) where
  functionList : List F
  dataRegionList : List R

/-- What the pass changes. An instruction without a link is `none`; the instructions are in the order of the blocks. -/
structure State (F P S R : Type) where
  name : F → String
  /-- The name of `getSymbol()`. -/
  symbolName : F → Option String
  instructions : F → List (Option (Link F P S))
  sectionName : S → String
  module : Module F R
  otherModule : Module F R

/-- Regions are compared by their address. The alias map and the PLT list are those of the target module. -/
structure Program (F P S R : Type) where
  sections : R → List S
  parent : S → R
  writable : R → Bool
  type : S → SectionType
  address : S → BitVec 64
  aliasMap : String → Option F
  pltList : List P
  pltName : P → String
  pltAddress : P → BitVec 64

variable {F P S R : Type}

/-- `isExternalJump()`; `none` is thrown. -/
def Link.isExternalJump : Link F P S → Option Bool
  | absoluteNormalLink scope | normalLink _ scope | absoluteDataLink scope | dataOffsetLink _ _ _ scope | otherLink scope =>
    some (scope &&& withinFunction ≠ withinFunction)
  | pltLink _ _ => some (withinModule &&& withinFunction ≠ withinFunction)
  | immAndDispLink => none

/-- What `updateLinks` does at a link. -/
inductive Action (F P S R : Type) where
  | stop
  | skip
  | returnFalse
  | setLink (link : Link F P S)
  | insertRegion (region : R)
deriving DecidableEq

/-- The link of the instruction after the action. -/
def Action.linkAfter (link : Option (Link F P S)) : Action F P S R → Option (Link F P S)
  | .setLink newLink => some newLink
  | _ => link

/-- The region that the action inserts. -/
def Action.inserted : Action F P S R → Option R
  | .insertRegion region => some region
  | _ => none

namespace Program

variable (program : Program F P S R)

/-- `CIter::named(...)->find(name)`: the last one with the name. -/
def named {α : Type} (getName : α → String) (children : List α) (name : String) : Option α :=
  (children.filter fun child => getName child = name).getLast?

def findFunctionInModule (s : State F P S R) (name : String) : Option F :=
  (named s.name s.module.functionList name).or (program.aliasMap name)

/-- `module->getDataRegionList()->findDataSection(name)`. -/
def findDataSection (s : State F P S R) (name : String) : Option S :=
  s.module.dataRegionList.findSome? fun region => named s.sectionName (program.sections region) name

/-! ## `updateLinks` -/

def updateDataOffsetLink (s : State F P S R) (section_ : S) (target addend : BitVec 64) (scope : BitVec 3) : Action F P S R :=
  let targetAddress := program.address section_ + target + addend
  let offset := targetAddress - program.address section_ - addend
  if program.type section_ = .data ∨ program.type section_ = .bss then
    let region := program.parent section_
    if !program.writable region then .insertRegion region
    else
      match program.findDataSection s (s.sectionName section_) with
      | some newRef => .setLink (.dataOffsetLink newRef offset addend scope)
      | none => .returnFalse
  else .returnFalse

/-- For an external link. -/
def updateExternalLink (s : State F P S R) : Link F P S → Action F P S R
  | .absoluteNormalLink _ => .stop
  | .normalLink (some oldRef) scope =>
    match program.findFunctionInModule s (s.name oldRef) with
    | some newRef => .setLink (.normalLink (some newRef) scope)
    | none => .returnFalse
  | .normalLink none _ => .returnFalse
  | .pltLink _ oldRef =>
    match named program.pltName program.pltList (program.pltName oldRef) with
    | some newRef => .setLink (.pltLink (program.pltAddress newRef) newRef)
    | none => .returnFalse
  | .absoluteDataLink _ => .stop
  | .dataOffsetLink section_ target addend scope => program.updateDataOffsetLink s section_ target addend scope
  | .immAndDispLink => .stop
  | .otherLink _ => .returnFalse

def updateLink (s : State F P S R) : Option (Link F P S) → Action F P S R
  | none => .skip
  | some link =>
    match link.isExternalJump with
    | none => .stop
    | some false => .skip
    | some true => program.updateExternalLink s link

section

variable [LinearOrder R]

/-- The loop over the instructions: what it returns, and the instructions and `regionsNeeded` after it. -/
def updateInstructions (s : State F P S R) :
    List (Option (Link F P S)) → Finset R → Option (Bool × List (Option (Link F P S)) × Finset R)
  | [], regionsNeeded => some (true, [], regionsNeeded)
  | link :: links, regionsNeeded =>
    let next (link : Option (Link F P S)) (regionsNeeded : Finset R) :=
      (updateInstructions s links regionsNeeded).map fun (result, links, regionsNeeded) => (result, link :: links, regionsNeeded)
    match program.updateLink s link with
    | .stop => none
    | .skip => next link regionsNeeded
    | .returnFalse => some (false, link :: links, regionsNeeded)
    | .setLink newLink => next (some newLink) regionsNeeded
    | .insertRegion region => next link (insert region regionsNeeded)

variable [DecidableEq F]

def updateLinks (s : State F P S R) (otherFunc : F) (regionsNeeded : Finset R) : Option (Bool × State F P S R × Finset R) :=
  (program.updateInstructions s (s.instructions otherFunc) regionsNeeded).map fun (result, links, regionsNeeded) =>
    (result, { s with instructions := Function.update s.instructions otherFunc links }, regionsNeeded)

/-! ## `visit` -/

/-- The state, `transformed` and `regionsNeeded`. -/
abbrev Merging (F P S R : Type) := State F P S R × List F × Finset R

def visitFunction (merging : Merging F P S R) (otherFunc : F) : Option (Merging F P S R) :=
  let (s, transformed, regionsNeeded) := merging
  match program.findFunctionInModule s (s.name otherFunc) with
  | none => some merging
  | some _ =>
    (program.updateLinks s otherFunc regionsNeeded).map fun (result, s, regionsNeeded) =>
      (s, if result then transformed ++ [otherFunc] else transformed, regionsNeeded)

def copyFunctionTo (s : State F P S R) (otherFunc : F) : Option (State F P S R) :=
  let name := s.name otherFunc ++ "$rhs"
  match s.symbolName otherFunc with
  | none => none
  | some _ => some { s with
      name := Function.update s.name otherFunc name
      symbolName := Function.update s.symbolName otherFunc (some name)
      otherModule := { s.otherModule with functionList := s.otherModule.functionList.erase otherFunc }
      module := { s.module with functionList := s.module.functionList ++ [otherFunc] } }

variable [DecidableEq S]

def copyRegionTo (s : State F P S R) (otherRegion : R) : State F P S R :=
  { s with
    sectionName := (program.sections otherRegion).foldl (fun name s => Function.update name s (name s ++ ".rhs")) s.sectionName
    otherModule := { s.otherModule with dataRegionList := s.otherModule.dataRegionList.erase otherRegion }
    module := { s.module with dataRegionList := s.module.dataRegionList ++ [otherRegion] } }

def visit (s : State F P S R) : Option (State F P S R) := do
  let (s, transformed, regionsNeeded) ← s.otherModule.functionList.foldlM program.visitFunction (s, [], ∅)
  let s ← transformed.foldlM copyFunctionTo s
  return (regionsNeeded.sort (· ≤ ·)).foldl program.copyRegionTo s

end

/-! ## The links of a function -/

variable {program}

def isExternal : Option (Link F P S) → Bool
  | none => false
  | some link => link.isExternalJump = some true

variable (program) in
/-- The target module has what the external link needs. -/
def isSupported (s : State F P S R) : Link F P S → Bool
  | .normalLink (some oldRef) _ => (program.findFunctionInModule s (s.name oldRef)).isSome
  | .pltLink _ oldRef => (named program.pltName program.pltList (program.pltName oldRef)).isSome
  | .dataOffsetLink section_ _ _ _ =>
    (program.type section_ = .data ∨ program.type section_ = .bss) ∧
      (program.writable (program.parent section_) → (program.findDataSection s (s.sectionName section_)).isSome)
  | _ => false

variable (program) in
def isUnsupported (s : State F P S R) : Option (Link F P S) → Bool
  | none => false
  | some link => link.isExternalJump = some true && !program.isSupported s link

variable (program) in
/-- The external link already is what it would be redirected to. -/
def IsInPlace (s : State F P S R) : Link F P S → Prop
  | .normalLink (some oldRef) _ => program.findFunctionInModule s (s.name oldRef) = some oldRef
  | .pltLink address oldRef => named program.pltName program.pltList (program.pltName oldRef) = some oldRef ∧ address = program.pltAddress oldRef
  | .dataOffsetLink section_ _ _ _ =>
    program.writable (program.parent section_) → program.findDataSection s (s.sectionName section_) = some section_
  | _ => True

variable (program) in
/-- The region that an external link into a section that is not writable needs. -/
def neededRegion : Option (Link F P S) → Option R
  | some (.dataOffsetLink section_ _ _ scope) =>
    if scope &&& withinFunction ≠ withinFunction ∧ (program.type section_ = .data ∨ program.type section_ = .bss) ∧
        program.writable (program.parent section_) = false then some (program.parent section_)
    else none
  | _ => none

variable (program) in
/-- The link leads into the target module or to one of the regions. -/
def IsInTarget (s : State F P S R) (regions : List R) : Link F P S → Prop
  | .normalLink (some target) _ => target ∈ s.module.functionList
  | .pltLink _ pltTrampoline => pltTrampoline ∈ program.pltList
  | .dataOffsetLink section_ _ _ _ =>
    (∃ region ∈ s.module.dataRegionList, section_ ∈ program.sections region) ∨ program.parent section_ ∈ regions
  | _ => False

theorem mem_named {α : Type} {getName : α → String} {children : List α} {name : String} {child : α}
    (h : named getName children name = some child) : child ∈ children :=
  (List.mem_filter.1 (List.mem_of_getLast? h)).1

theorem mem_findDataSection {s : State F P S R} {name : String} {section_ : S}
    (h : program.findDataSection s name = some section_) : ∃ region ∈ s.module.dataRegionList, section_ ∈ program.sections region := by
  obtain ⟨region, hregion, hfound⟩ := List.exists_of_findSome?_eq_some h
  exact ⟨region, hregion, mem_named hfound⟩

theorem isExternalJump_eq_true {link : Link F P S} (h : link.isExternalJump = some false) : isExternal (some link) = false := by
  simp [isExternal, h]

section

variable {s : State F P S R} {link : Link F P S}

theorem updateLink_of_not_isExternal (h : program.updateLink s (some link) ≠ .stop) (hlink : isExternal (some link) = false) :
    program.updateLink s (some link) = .skip := by
  unfold updateLink isExternal at *
  cases hjump : link.isExternalJump with
  | none => simp [hjump] at h
  | some external => simp_all

theorem updateLink_of_isExternal (hlink : isExternal (some link) = true) :
    program.updateLink s (some link) = program.updateExternalLink s link := by
  simp only [isExternal, decide_eq_true_eq] at hlink
  simp only [updateLink, hlink]

/-- The loop returns false exactly at the links that are not supported. -/
theorem updateExternalLink_eq_returnFalse (h : program.updateExternalLink s link ≠ .stop) :
    program.updateExternalLink s link = .returnFalse ↔ program.isSupported s link = false := by
  cases link with
  | normalLink target scope =>
    cases target with
    | none => simp [updateExternalLink, isSupported]
    | some target => cases hfound : program.findFunctionInModule s (s.name target) <;> simp [updateExternalLink, isSupported, hfound]
  | pltLink address pltTrampoline =>
    cases hfound : named program.pltName program.pltList (program.pltName pltTrampoline) <;>
      simp [updateExternalLink, isSupported, hfound]
  | dataOffsetLink section_ target addend scope =>
    by_cases htype : program.type section_ = .data ∨ program.type section_ = .bss
    · cases hwritable : program.writable (program.parent section_) <;>
        cases hfound : program.findDataSection s (s.sectionName section_) <;>
          simp [updateExternalLink, updateDataOffsetLink, isSupported, htype, hwritable, hfound]
    · simp [updateExternalLink, updateDataOffsetLink, isSupported, htype]
  | otherLink scope => simp [updateExternalLink, isSupported]
  | _ => simp [updateExternalLink] at h

/-- A supported external link stays as it is exactly when it is in place. -/
theorem linkAfter_eq_iff (hlink : program.isSupported s link = true) :
    (program.updateExternalLink s link).linkAfter (some link) = some link ↔ program.IsInPlace s link := by
  cases link with
  | normalLink target scope =>
    cases target with
    | none => simp [isSupported] at hlink
    | some target =>
      obtain ⟨newRef, hfound⟩ := Option.isSome_iff_exists.1 hlink
      simp [updateExternalLink, Action.linkAfter, IsInPlace, hfound]
  | pltLink address pltTrampoline =>
    obtain ⟨newRef, hfound⟩ := Option.isSome_iff_exists.1 hlink
    simp only [updateExternalLink, hfound, Action.linkAfter, IsInPlace, Option.some.injEq, Link.pltLink.injEq]
    constructor
    · rintro ⟨rfl, rfl⟩
      exact ⟨rfl, rfl⟩
    · rintro ⟨rfl, rfl⟩
      exact ⟨rfl, rfl⟩
  | dataOffsetLink section_ target addend scope =>
    simp only [isSupported, Bool.decide_and, Bool.and_eq_true, decide_eq_true_eq] at hlink
    obtain ⟨htype, hfound⟩ := hlink
    have hoffset : program.address section_ + target + addend - program.address section_ - addend = target := by ring
    cases hwritable : program.writable (program.parent section_) with
    | false => simp [updateExternalLink, updateDataOffsetLink, htype, hwritable, Action.linkAfter, IsInPlace]
    | true =>
      obtain ⟨newRef, hfound⟩ := Option.isSome_iff_exists.1 (hfound hwritable)
      simp [updateExternalLink, updateDataOffsetLink, htype, hwritable, hfound, Action.linkAfter, IsInPlace, hoffset]
  | _ => simp [isSupported] at hlink

theorem inserted_eq (hexternal : isExternal (some link) = true) (hlink : program.isSupported s link = true) :
    (program.updateExternalLink s link).inserted = program.neededRegion (some link) := by
  cases link with
  | normalLink target scope =>
    cases target with
    | none => simp [isSupported] at hlink
    | some target =>
      obtain ⟨newRef, hfound⟩ := Option.isSome_iff_exists.1 hlink
      simp [updateExternalLink, Action.inserted, neededRegion, hfound]
  | pltLink address pltTrampoline =>
    obtain ⟨newRef, hfound⟩ := Option.isSome_iff_exists.1 hlink
    simp [updateExternalLink, Action.inserted, neededRegion, hfound]
  | dataOffsetLink section_ target addend scope =>
    simp only [isSupported, Bool.decide_and, Bool.and_eq_true, decide_eq_true_eq] at hlink
    obtain ⟨htype, hfound⟩ := hlink
    simp only [isExternal, Link.isExternalJump, Option.some.injEq, decide_eq_true_eq] at hexternal
    cases hwritable : program.writable (program.parent section_) with
    | false => simp [updateExternalLink, updateDataOffsetLink, htype, hwritable, Action.inserted, neededRegion, hexternal]
    | true =>
      obtain ⟨newRef, hfound⟩ := Option.isSome_iff_exists.1 (hfound hwritable)
      simp [updateExternalLink, updateDataOffsetLink, htype, hwritable, hfound, Action.inserted, neededRegion]
  | _ => simp [isSupported] at hlink

theorem isInTarget_linkAfter {regions : List R} {newLink : Link F P S} (halias : ∀ name f, program.aliasMap name = some f → f ∈ s.module.functionList)
    (hlink : program.isSupported s link = true) (hregion : ∀ region, (program.updateExternalLink s link).inserted = some region → region ∈ regions)
    (h : (program.updateExternalLink s link).linkAfter (some link) = some newLink) : program.IsInTarget s regions newLink := by
  cases link with
  | normalLink target scope =>
    cases target with
    | none => simp [isSupported] at hlink
    | some target =>
      obtain ⟨newRef, hfound⟩ := Option.isSome_iff_exists.1 hlink
      simp only [updateExternalLink, hfound, Action.linkAfter, Option.some.injEq] at h
      subst h
      rcases Option.or_eq_some_iff.1 hfound with hfound | ⟨-, hfound⟩
      · exact mem_named hfound
      · exact halias _ _ hfound
  | pltLink address pltTrampoline =>
    obtain ⟨newRef, hfound⟩ := Option.isSome_iff_exists.1 hlink
    simp only [updateExternalLink, hfound, Action.linkAfter, Option.some.injEq] at h
    subst h
    exact mem_named hfound
  | dataOffsetLink section_ target addend scope =>
    simp only [isSupported, Bool.decide_and, Bool.and_eq_true, decide_eq_true_eq] at hlink
    obtain ⟨htype, hfound⟩ := hlink
    cases hwritable : program.writable (program.parent section_) with
    | false =>
      simp only [updateExternalLink, updateDataOffsetLink, htype, hwritable, Action.linkAfter, Action.inserted, Bool.not_false,
        if_true, Option.some.injEq] at h hregion
      subst h
      exact Or.inr (hregion _ rfl)
    | true =>
      obtain ⟨newRef, hfound⟩ := Option.isSome_iff_exists.1 (hfound hwritable)
      simp only [updateExternalLink, updateDataOffsetLink, htype, hwritable, hfound, Action.linkAfter, Bool.not_true, if_true,
        Bool.false_eq_true, if_false, Option.some.injEq] at h
      subst h
      exact Or.inl (mem_findDataSection hfound)
  | _ => simp [isSupported] at hlink

theorem neededRegion_of_not_isExternal (hlink : isExternal (some link) = false) : program.neededRegion (some link) = none := by
  cases link with
  | dataOffsetLink section_ target addend scope =>
    simp only [isExternal, Link.isExternalJump, Option.some.injEq, decide_eq_true_eq, decide_eq_false_iff_not] at hlink
    simp [neededRegion, hlink]
  | _ => rfl

end

section

variable {s : State F P S R} {link : Option (Link F P S)}

variable (program) in
def IsKept (s : State F P S R) (link : Option (Link F P S)) : Prop :=
  ∀ oldLink, link = some oldLink → isExternal link = true → program.IsInPlace s oldLink

theorem updateLink_eq_returnFalse (h : program.updateLink s link ≠ .stop) :
    program.updateLink s link = .returnFalse ↔ program.isUnsupported s link = true := by
  cases link with
  | none => simp [updateLink, isUnsupported]
  | some link =>
    have hunsupported : program.isUnsupported s (some link) = (isExternal (some link) && !program.isSupported s link) := rfl
    cases hlink : isExternal (some link) with
    | false => simp [updateLink_of_not_isExternal h hlink, hunsupported, hlink]
    | true =>
      rw [updateLink_of_isExternal hlink] at h ⊢
      simp [updateExternalLink_eq_returnFalse h, hunsupported, hlink]

theorem isSupported_of_isExternal {link : Link F P S} (hlink : program.isUnsupported s (some link) = false)
    (hexternal : isExternal (some link) = true) : program.isSupported s link = true := by
  have hunsupported : program.isUnsupported s (some link) = (isExternal (some link) && !program.isSupported s link) := rfl
  simpa [hunsupported, hexternal] using hlink

theorem inserted_updateLink (h : program.updateLink s link ≠ .stop) (hlink : program.isUnsupported s link = false) :
    (program.updateLink s link).inserted = program.neededRegion link := by
  cases link with
  | none => rfl
  | some link =>
    cases hexternal : isExternal (some link) with
    | false =>
      rw [updateLink_of_not_isExternal h hexternal, neededRegion_of_not_isExternal hexternal]
      rfl
    | true =>
      rw [updateLink_of_isExternal hexternal]
      exact inserted_eq hexternal (isSupported_of_isExternal hlink hexternal)

theorem linkAfter_updateLink (h : program.updateLink s link ≠ .stop) (hlink : program.isUnsupported s link = false) :
    (program.updateLink s link).linkAfter link = link ↔ program.IsKept s link := by
  cases link with
  | none => simp [updateLink, Action.linkAfter, IsKept]
  | some link =>
    simp only [IsKept, Option.some.injEq, forall_eq']
    cases hexternal : isExternal (some link) with
    | false => simp [updateLink_of_not_isExternal h hexternal, Action.linkAfter]
    | true =>
      rw [updateLink_of_isExternal hexternal, linkAfter_eq_iff (isSupported_of_isExternal hlink hexternal)]
      simp

/-- The external links of an instruction that the loop has passed lead into the target module or to a region. -/
theorem isInTarget_updateLink {regions : List R} {newLink : Link F P S}
    (halias : ∀ name f, program.aliasMap name = some f → f ∈ s.module.functionList)
    (h : program.updateLink s link ≠ .stop) (hlink : program.isUnsupported s link = false)
    (hregion : ∀ region, program.neededRegion link = some region → region ∈ regions)
    (hnew : (program.updateLink s link).linkAfter link = some newLink) (hexternal : isExternal (some newLink) = true) :
    program.IsInTarget s regions newLink := by
  cases link with
  | none => simp [updateLink, Action.linkAfter] at hnew
  | some link =>
    cases hold : isExternal (some link) with
    | false =>
      rw [updateLink_of_not_isExternal h hold] at hnew
      cases hnew
      rw [hold] at hexternal
      cases hexternal
    | true =>
      rw [← inserted_updateLink h hlink, updateLink_of_isExternal hold] at hregion
      rw [updateLink_of_isExternal hold] at hnew
      exact isInTarget_linkAfter halias (isSupported_of_isExternal hlink hold) hregion hnew

end

/-! ## The loop over the instructions -/

section

variable {s : State F P S R} {links links' : List (Option (Link F P S))} {result : Bool}

variable (program) in
/-- The links before the first one that is not supported. -/
def supportedPart (s : State F P S R) (links : List (Option (Link F P S))) : List (Option (Link F P S)) :=
  links.takeWhile fun link => !program.isUnsupported s link

variable (program) in
/-- The links as the loop leaves them. -/
def updatedLinks (s : State F P S R) (links : List (Option (Link F P S))) : List (Option (Link F P S)) :=
  (program.supportedPart s links).map (fun link => (program.updateLink s link).linkAfter link) ++
    links.dropWhile fun link => !program.isUnsupported s link

variable [LinearOrder R] {regionsNeeded regionsNeeded' : Finset R}

theorem updateInstructions_cons_of_isUnsupported {link : Option (Link F P S)} (h : program.updateLink s link ≠ .stop)
    (hlink : program.isUnsupported s link = true) :
    program.updateInstructions s (link :: links) regionsNeeded = some (false, link :: links, regionsNeeded) := by
  rw [updateInstructions, (updateLink_eq_returnFalse h).2 hlink]

theorem updateInstructions_cons {link : Option (Link F P S)} (h : program.updateLink s link ≠ .stop)
    (hlink : program.isUnsupported s link = false) :
    program.updateInstructions s (link :: links) regionsNeeded =
      (program.updateInstructions s links ((program.neededRegion link).toFinset ∪ regionsNeeded)).map
        fun (result, links, regionsNeeded) => (result, (program.updateLink s link).linkAfter link :: links, regionsNeeded) := by
  have hfalse : program.updateLink s link ≠ .returnFalse := by
    rw [ne_eq, updateLink_eq_returnFalse h, hlink]
    exact Bool.false_ne_true
  rw [← inserted_updateLink h hlink, updateInstructions]
  cases haction : program.updateLink s link with
  | stop => exact absurd haction h
  | skip => simp [Action.inserted, Action.linkAfter]
  | returnFalse => exact absurd haction hfalse
  | setLink newLink => simp [Action.inserted, Action.linkAfter]
  | insertRegion region => simp [Action.inserted, Action.linkAfter]

theorem updateLink_ne_stop {link : Option (Link F P S)}
    (h : program.updateInstructions s (link :: links) regionsNeeded = some (result, links', regionsNeeded')) :
    program.updateLink s link ≠ .stop := by
  intro hstop
  rw [updateInstructions, hstop] at h
  cases h

/-- What the loop returns, the links after it, and the regions that it has inserted. -/
theorem updateInstructions_spec (h : program.updateInstructions s links regionsNeeded = some (result, links', regionsNeeded')) :
    (result = true ↔ ∀ link ∈ links, program.isUnsupported s link = false) ∧ links' = program.updatedLinks s links ∧
      (∀ link ∈ program.supportedPart s links, program.updateLink s link ≠ .stop) ∧
      ∀ region, region ∈ regionsNeeded' ↔
        region ∈ regionsNeeded ∨ ∃ link ∈ program.supportedPart s links, program.neededRegion link = some region := by
  induction links generalizing regionsNeeded result links' with
  | nil =>
    cases h
    simp [updatedLinks, supportedPart]
  | cons link links ih =>
    have hstop := updateLink_ne_stop h
    cases hlink : program.isUnsupported s link with
    | true =>
      rw [updateInstructions_cons_of_isUnsupported hstop hlink] at h
      cases h
      simp [updatedLinks, supportedPart, hlink]
    | false =>
      rw [updateInstructions_cons hstop hlink, Option.map_eq_some_iff] at h
      obtain ⟨⟨result₁, links₁, regions₁⟩, h, heq⟩ := h
      cases heq
      obtain ⟨hresult, hlinks, hstops, hregions⟩ := ih h
      have hpart : program.supportedPart s (link :: links) = link :: program.supportedPart s links := by
        simp [supportedPart, hlink]
      refine ⟨?_, ?_, ?_, fun region => ?_⟩
      · rw [hresult, List.forall_mem_cons]
        exact (and_iff_right hlink).symm
      · rw [hlinks, updatedLinks, updatedLinks, hpart, List.dropWhile_cons_of_pos (by simp [hlink])]
        rfl
      · rw [hpart, List.forall_mem_cons]
        exact ⟨hstop, hstops⟩
      · rw [hregions, hpart]
        simp only [Finset.mem_union, Option.mem_toFinset, Option.mem_def, List.mem_cons, exists_eq_or_imp]
        tauto

/-- Whether the loop ends does not depend on the regions that are there. -/
theorem isSome_updateInstructions (regionsNeeded₁ regionsNeeded₂ : Finset R) :
    (program.updateInstructions s links regionsNeeded₁).isSome = (program.updateInstructions s links regionsNeeded₂).isSome := by
  induction links generalizing regionsNeeded₁ regionsNeeded₂ with
  | nil => rfl
  | cons link links ih =>
    by_cases hstop : program.updateLink s link = .stop
    · simp only [updateInstructions, hstop]
    · cases hlink : program.isUnsupported s link with
      | true => simp only [updateInstructions_cons_of_isUnsupported hstop hlink, Option.isSome_some]
      | false =>
        rw [updateInstructions_cons hstop hlink, updateInstructions_cons hstop hlink, Option.isSome_map, Option.isSome_map]
        exact ih _ _

end

/-! ## The loop over the functions -/

section

variable {s : State F P S R}

variable (program) in
/-- The target module has a function with the name, or an alias. -/
def isCommon (s : State F P S R) (otherFunc : F) : Bool := (program.findFunctionInModule s (s.name otherFunc)).isSome

variable (program) in
/-- The function is common to the modules, and its external links are supported. -/
def isMoved (s : State F P S R) (otherFunc : F) : Bool :=
  program.isCommon s otherFunc && (s.instructions otherFunc).all fun link => !program.isUnsupported s link

theorem isMoved_iff {otherFunc : F} : program.isMoved s otherFunc = true ↔
    program.isCommon s otherFunc = true ∧ ∀ link ∈ s.instructions otherFunc, program.isUnsupported s link = false := by
  simp [isMoved]

variable [LinearOrder R]

theorem updateInstructions_instructions (instructions : F → List (Option (Link F P S))) (links : List (Option (Link F P S)))
    (regionsNeeded : Finset R) : program.updateInstructions { s with instructions := instructions } links regionsNeeded =
      program.updateInstructions s links regionsNeeded := by
  induction links generalizing regionsNeeded with
  | nil => rfl
  | cons link links ih =>
    have hlink : program.updateLink { s with instructions := instructions } link = program.updateLink s link := rfl
    rw [updateInstructions, updateInstructions, hlink]
    cases program.updateLink s link <;> simp [ih]

variable [DecidableEq F]

variable (program) in
/-- What the loop has done after the functions `done`. -/
structure Visited (s : State F P S R) (done : List F) (merging : Merging F P S R) : Prop where
  state : merging.1 = { s with instructions := fun f =>
    if f ∈ done ∧ program.isCommon s f then program.updatedLinks s (s.instructions f) else s.instructions f }
  transformed : merging.2.1 = done.filter (program.isMoved s)
  mem_regionsNeeded : ∀ region, region ∈ merging.2.2 ↔ ∃ f ∈ done, program.isCommon s f ∧
    ∃ link ∈ program.supportedPart s (s.instructions f), program.neededRegion link = some region
  isSome : ∀ f ∈ done, program.isCommon s f → (program.updateInstructions s (s.instructions f) ∅).isSome
  ne_stop : ∀ f ∈ done, program.isCommon s f → ∀ link ∈ program.supportedPart s (s.instructions f), program.updateLink s link ≠ .stop

theorem Visited.visitFunction {done : List F} {otherFunc : F} {merging merging' : Merging F P S R}
    (hvisited : program.Visited s done merging) (hnew : otherFunc ∉ done) (h : program.visitFunction merging otherFunc = some merging') :
    program.Visited s (done ++ [otherFunc]) merging' := by
  obtain ⟨s₁, transformed, regionsNeeded⟩ := merging
  obtain ⟨hs, htransformed, hregions, hsome, hstop⟩ := hvisited
  simp only at hs htransformed hregions
  subst hs htransformed
  have hfound : program.findFunctionInModule
      { s with instructions := fun f =>
        if f ∈ done ∧ program.isCommon s f then program.updatedLinks s (s.instructions f) else s.instructions f }
      (s.name otherFunc) = program.findFunctionInModule s (s.name otherFunc) := rfl
  simp only [Program.visitFunction, hfound] at h
  cases hcommon : program.isCommon s otherFunc with
  | false =>
    have hnone : program.findFunctionInModule s (s.name otherFunc) = none := by
      rwa [isCommon, Option.isSome_eq_false_iff, Option.isNone_iff_eq_none] at hcommon
    have hiff : ∀ f, f ∈ done ++ [otherFunc] ∧ program.isCommon s f = true ↔ f ∈ done ∧ program.isCommon s f = true := by
      intro f
      constructor
      · rintro ⟨hf, hfcommon⟩
        rcases List.mem_append.1 hf with hf | hf
        · exact ⟨hf, hfcommon⟩
        · rw [List.mem_singleton.1 hf, hcommon] at hfcommon
          cases hfcommon
      · rintro ⟨hf, hfcommon⟩
        exact ⟨List.mem_append_left _ hf, hfcommon⟩
    simp only [hnone, Option.some.injEq] at h
    subst h
    refine ⟨?_, ?_, fun region => ?_, fun f hf hfcommon => ?_, fun f hf hfcommon => ?_⟩
    · simp only [hiff]
    · rw [List.filter_append, List.filter_singleton, isMoved, hcommon]
      simp
    · rw [hregions]
      simp only [← and_assoc, hiff]
    · exact hsome f ((hiff f).1 ⟨hf, hfcommon⟩).1 hfcommon
    · exact hstop f ((hiff f).1 ⟨hf, hfcommon⟩).1 hfcommon
  | true =>
    obtain ⟨newRef, hnewRef⟩ := Option.isSome_iff_exists.1 hcommon
    simp only [hnewRef, updateLinks, updateInstructions_instructions, hnew, false_and, if_false, Option.map_eq_some_iff] at h
    obtain ⟨⟨result, s₂, regions₂⟩, ⟨⟨result, links, regions₁⟩, h, heq⟩, heq'⟩ := h
    cases heq
    cases heq'
    obtain ⟨hresult, rfl, hstops, hneeded⟩ := updateInstructions_spec h
    refine ⟨?_, ?_, fun region => ?_, ?_, ?_⟩
    · simp only [State.mk.injEq, true_and, and_true]
      funext f
      by_cases hf : f = otherFunc
      · subst hf
        simp [hcommon]
      · simp [hf]
    · have hmoved : program.isMoved s otherFunc = result := by
        rw [Bool.eq_iff_iff, isMoved_iff, hresult]
        exact and_iff_right hcommon
      simp only [List.filter_append, List.filter_singleton, hmoved]
      cases result <;> simp
    · rw [hneeded, hregions]
      simp only [List.mem_append, List.mem_singleton, or_and_right, exists_or, exists_eq_left, hcommon, true_and]
    · simp only [List.mem_append, List.mem_singleton, or_imp, forall_and, forall_eq]
      refine ⟨hsome, fun _ => ?_⟩
      rw [isSome_updateInstructions ∅ regionsNeeded, h]
      rfl
    · simp only [List.mem_append, List.mem_singleton, or_imp, forall_and, forall_eq]
      exact ⟨hstop, fun _ => hstops⟩

/-- The loop over the functions of the other module. -/
theorem visited_of_foldlM {merging : Merging F P S R} (hnodup : s.otherModule.functionList.Nodup)
    (h : s.otherModule.functionList.foldlM program.visitFunction (s, [], ∅) = some merging) :
    program.Visited s s.otherModule.functionList merging := by
  refine foldlM_invariant_done (s := (s, [], ∅)) (program.Visited s) (fun done otherFunc rest merging merging' hl hvisited h => ?_)
    ⟨by simp, by simp, by simp, by simp, by simp⟩ h
  rw [hl, List.nodup_append] at hnodup
  exact hvisited.visitFunction (fun hdone => hnodup.2.2 otherFunc hdone otherFunc List.mem_cons_self rfl) h

/-! ## What the pass does -/

omit [LinearOrder R] in
theorem of_foldlM_copyFunctionTo {functions : List F} {s s' : State F P S R} (h : functions.foldlM copyFunctionTo s = some s') :
    s'.instructions = s.instructions ∧ s'.module = { s.module with functionList := s.module.functionList ++ functions } ∧
      s'.otherModule = { s.otherModule with functionList := s.otherModule.functionList.diff functions } := by
  induction functions generalizing s with
  | nil =>
    cases h
    simp
  | cons otherFunc functions ih =>
    rw [List.foldlM_cons, Option.bind_eq_bind, Option.bind_eq_some_iff] at h
    obtain ⟨s₁, h₁, h⟩ := h
    obtain ⟨hinstructions, hmodule, hother⟩ := ih h
    unfold copyFunctionTo at h₁
    split at h₁
    · cases h₁
    · cases h₁
      rw [hinstructions, hmodule, hother]
      simp [List.diff_cons]

variable [DecidableEq S]

variable (program) in
omit [DecidableEq F] in
theorem foldl_copyRegionTo (regions : List R) (s : State F P S R) :
    (regions.foldl program.copyRegionTo s).instructions = s.instructions ∧
      (regions.foldl program.copyRegionTo s).module = { s.module with dataRegionList := s.module.dataRegionList ++ regions } ∧
      (regions.foldl program.copyRegionTo s).otherModule =
        { s.otherModule with dataRegionList := s.otherModule.dataRegionList.diff regions } := by
  induction regions generalizing s with
  | nil => simp
  | cons region regions ih =>
    obtain ⟨hinstructions, hmodule, hother⟩ := ih (program.copyRegionTo s region)
    rw [List.foldl_cons, hinstructions, hmodule, hother]
    simp [copyRegionTo, List.diff_cons]

variable (program) in
/-- What the pass leaves when it ends, with the regions that it moves. -/
structure Ends (s s' : State F P S R) (regions : List R) : Prop where
  mem_regions : ∀ region, region ∈ regions ↔ ∃ f ∈ s.otherModule.functionList, program.isCommon s f ∧
    ∃ link ∈ program.supportedPart s (s.instructions f), program.neededRegion link = some region
  instructions : s'.instructions = fun f =>
    if f ∈ s.otherModule.functionList ∧ program.isCommon s f then program.updatedLinks s (s.instructions f) else s.instructions f
  module : s'.module = ⟨s.module.functionList ++ s.otherModule.functionList.filter (program.isMoved s), s.module.dataRegionList ++ regions⟩
  otherModule : s'.otherModule = ⟨s.otherModule.functionList.diff (s.otherModule.functionList.filter (program.isMoved s)),
    s.otherModule.dataRegionList.diff regions⟩
  isSome : ∀ f ∈ s.otherModule.functionList, program.isCommon s f → (program.updateInstructions s (s.instructions f) ∅).isSome
  ne_stop : ∀ f ∈ s.otherModule.functionList, program.isCommon s f →
    ∀ link ∈ program.supportedPart s (s.instructions f), program.updateLink s link ≠ .stop

theorem exists_ends {s' : State F P S R} (hnodup : s.otherModule.functionList.Nodup) (h : program.visit s = some s') :
    ∃ regions, program.Ends s s' regions := by
  simp only [visit, Option.bind_eq_bind, Option.bind_eq_some_iff, Option.pure_def, Option.some.injEq] at h
  obtain ⟨⟨s₁, transformed, regionsNeeded⟩, hvisit, s₂, hcopy, rfl⟩ := h
  obtain ⟨hs, htransformed, hregions, hsome, hstop⟩ := visited_of_foldlM hnodup hvisit
  simp only at hs htransformed hregions
  obtain ⟨hinstructions, hmodule, hother⟩ := of_foldlM_copyFunctionTo hcopy
  obtain ⟨hinstructions', hmodule', hother'⟩ := foldl_copyRegionTo program (regionsNeeded.sort (· ≤ ·)) s₂
  refine ⟨regionsNeeded.sort (· ≤ ·), fun region => ?_, ?_, ?_, ?_, hsome, hstop⟩
  · rw [Finset.mem_sort, hregions]
  · rw [hinstructions', hinstructions, hs]
  · rw [hmodule', hmodule, hs, htransformed]
  · rw [hother', hother, hs, htransformed]

end

/-! ## A function that is rejected leaves no trace -/

section

variable {s s' : State F P S R}

theorem updatedLinks_eq_iff {links : List (Option (Link F P S))}
    (hstop : ∀ link ∈ program.supportedPart s links, program.updateLink s link ≠ .stop) :
    program.updatedLinks s links = links ↔ ∀ link ∈ program.supportedPart s links, program.IsKept s link := by
  have hlinks : links = program.supportedPart s links ++ links.dropWhile fun link => !program.isUnsupported s link :=
    List.takeWhile_append_dropWhile.symm
  have hmap : (program.supportedPart s links).map (fun link => (program.updateLink s link).linkAfter link) = program.supportedPart s links ↔
      ∀ link ∈ program.supportedPart s links, (program.updateLink s link).linkAfter link = link := by
    conv_lhs => rhs; rw [← List.map_id (program.supportedPart s links)]
    exact List.map_inj_left
  conv_lhs => rhs; rw [hlinks]
  rw [updatedLinks, List.append_left_inj, hmap]
  refine forall₂_congr fun link hlink => ?_
  have hsupported : program.isUnsupported s link = false := by simpa using List.mem_takeWhile_imp hlink
  exact linkAfter_updateLink (hstop link hlink) hsupported

theorem supportedPart_of_isMoved {f : F} (h : program.isMoved s f = true) : program.supportedPart s (s.instructions f) = s.instructions f := by
  rw [supportedPart, List.takeWhile_eq_self_iff]
  intro link hlink
  simpa using (isMoved_iff.1 h).2 link hlink

variable [LinearOrder R] [DecidableEq F]

variable (program) in
/-- `updateLinks` is called for the function, and returns false. -/
def IsRejected (s : State F P S R) (otherFunc : F) : Prop :=
  otherFunc ∈ s.otherModule.functionList ∧ program.isCommon s otherFunc = true ∧
    ∃ s₁ regionsNeeded, program.updateLinks s otherFunc ∅ = some (false, s₁, regionsNeeded)

theorem isRejected_iff {f : F} (hf : f ∈ s.otherModule.functionList) (hcommon : program.isCommon s f = true)
    (hsome : (program.updateInstructions s (s.instructions f) ∅).isSome) :
    program.IsRejected s f ↔ ∃ link ∈ s.instructions f, program.isUnsupported s link = true := by
  obtain ⟨⟨result, links, regionsNeeded⟩, h⟩ := Option.isSome_iff_exists.1 hsome
  have hresult := (updateInstructions_spec h).1
  have hfalse : result = false ↔ ∃ link ∈ s.instructions f, program.isUnsupported s link = true := by
    rw [← Bool.not_eq_true, hresult]
    simp
  rw [← hfalse]
  simp [IsRejected, hf, hcommon, updateLinks, h]

variable (program) in
/-- The pass as it should be: a rejected function is as it was, the links of the functions moved lead into the target
module or to a region that is moved, and these are the regions that the functions moved need. -/
structure Merged (s s' : State F P S R) (functions : List F) (regions : List R) : Prop where
  functionList : s'.module.functionList = s.module.functionList ++ functions
  dataRegionList : s'.module.dataRegionList = s.module.dataRegionList ++ regions
  rejected : ∀ f, program.IsRejected s f → s'.instructions f = s.instructions f ∧ f ∈ s'.otherModule.functionList ∧ f ∉ functions
  moved : ∀ f ∈ functions, f ∈ s.otherModule.functionList ∧ f ∉ s'.otherModule.functionList
  redirected : ∀ f ∈ functions, ∀ link, some link ∈ s'.instructions f → isExternal (some link) = true → program.IsInTarget s regions link
  mem_regions : ∀ region, region ∈ regions ↔ ∃ f ∈ functions, ∃ link ∈ s.instructions f, program.neededRegion link = some region
  movedRegion : ∀ region ∈ regions, region ∉ s'.otherModule.dataRegionList

variable (program) in
/-- Before the first link that is not supported, a function only has links that are in place already, and it
needs no region but those of the functions that are moved. -/
def LeavesNoTrace (s : State F P S R) : Prop :=
  ∀ f ∈ s.otherModule.functionList, program.isCommon s f = true → (∃ link ∈ s.instructions f, program.isUnsupported s link = true) →
    ∀ link ∈ program.supportedPart s (s.instructions f), program.IsKept s link ∧
      ∀ region, program.neededRegion link = some region →
        ∃ g ∈ s.otherModule.functionList, program.isMoved s g = true ∧ ∃ link' ∈ s.instructions g, program.neededRegion link' = some region

variable (program) in
/-- The chunks of a list differ, and the aliases are those of functions of the target module. -/
structure WellFormed (s : State F P S R) : Prop where
  nodup_functions : s.otherModule.functionList.Nodup
  nodup_regions : s.otherModule.dataRegionList.Nodup
  aliasMap_mem : ∀ name f, program.aliasMap name = some f → f ∈ s.module.functionList

/-- The links of a moved function. -/
theorem Ends.isInTarget {regions : List R} (hends : program.Ends s s' regions) (hs : program.WellFormed s) {f : F}
    (hf : f ∈ s.otherModule.functionList) (hmoved : program.isMoved s f = true) {link : Link F P S}
    (hlink : some link ∈ s'.instructions f) (hexternal : isExternal (some link) = true) : program.IsInTarget s regions link := by
  have hcommon := (isMoved_iff.1 hmoved).1
  have hpart := supportedPart_of_isMoved hmoved
  rw [hends.instructions] at hlink
  simp only [hf, hcommon, true_and, if_true, updatedLinks, hpart, List.mem_append, List.mem_map] at hlink
  rcases hlink with ⟨oldLink, hold, hnew⟩ | hlink
  · refine isInTarget_updateLink hs.aliasMap_mem (hends.ne_stop f hf hcommon oldLink (hpart.symm ▸ hold)) ((isMoved_iff.1 hmoved).2 oldLink hold)
      (fun region hregion => ?_) hnew hexternal
    exact (hends.mem_regions region).2 ⟨f, hf, hcommon, oldLink, hpart.symm ▸ hold, hregion⟩
  · rw [List.dropWhile_eq_nil_iff.2 (fun link hlink => by simpa using (isMoved_iff.1 hmoved).2 link hlink)] at hlink
    cases hlink

/-- A rejected function is as it was exactly when its links before the one that is not supported are in place. -/
theorem Ends.instructions_eq_iff {regions : List R} (hends : program.Ends s s' regions) {f : F} (hf : f ∈ s.otherModule.functionList)
    (hcommon : program.isCommon s f = true) : s'.instructions f = s.instructions f ↔
      ∀ link ∈ program.supportedPart s (s.instructions f), program.IsKept s link := by
  rw [hends.instructions]
  simp only [hf, hcommon, true_and, if_true]
  exact updatedLinks_eq_iff (hends.ne_stop f hf hcommon)

variable [DecidableEq S]

/-- A pass that ends is as it should be exactly when the functions that are not moved leave no trace. -/
theorem merged_iff (hs : program.WellFormed s) (hvisit : program.visit s = some s') :
    (∃ functions regions, program.Merged s s' functions regions) ↔ program.LeavesNoTrace s := by
  obtain ⟨regions, hends⟩ := exists_ends hs.nodup_functions hvisit
  have hlists := hends.module
  have hother := hends.otherModule
  have hrejected : ∀ f ∈ s.otherModule.functionList, program.isCommon s f = true →
      (program.IsRejected s f ↔ ∃ link ∈ s.instructions f, program.isUnsupported s link = true) :=
    fun f hf hcommon => isRejected_iff hf hcommon (hends.isSome f hf hcommon)
  constructor
  · rintro ⟨functions, regions', hmerged⟩ f hf hcommon hunsupported link hlink
    have hfunctions : functions = s.otherModule.functionList.filter (program.isMoved s) :=
      List.append_cancel_left (hmerged.functionList.symm.trans (congrArg Module.functionList hlists))
    have hregions : regions' = regions :=
      List.append_cancel_left (hmerged.dataRegionList.symm.trans (congrArg Module.dataRegionList hlists))
    subst hfunctions hregions
    refine ⟨(hends.instructions_eq_iff hf hcommon).1 (hmerged.rejected f ((hrejected f hf hcommon).2 hunsupported)).1 link hlink,
      fun region hregion => ?_⟩
    obtain ⟨g, hg, link', hlink', hneeded⟩ := (hmerged.mem_regions region).1 ((hends.mem_regions region).2 ⟨f, hf, hcommon, link, hlink, hregion⟩)
    exact ⟨g, (List.mem_filter.1 hg).1, (List.mem_filter.1 hg).2, link', hlink', hneeded⟩
  · intro hclean
    refine ⟨s.otherModule.functionList.filter (program.isMoved s), regions, ?_⟩
    refine ⟨congrArg Module.functionList hlists, congrArg Module.dataRegionList hlists, fun f hf => ?_, fun f hf => ?_, fun f hf => ?_,
      fun region => ?_, fun region hregion => ?_⟩
    · obtain ⟨hmem, hcommon, -⟩ := id hf
      obtain ⟨link, hlink, hunsupported⟩ := (hrejected f hmem hcommon).1 hf
      have hmoved : f ∉ s.otherModule.functionList.filter (program.isMoved s) := by
        intro h
        have := (isMoved_iff.1 (List.mem_filter.1 h).2).2 link hlink
        rw [hunsupported] at this
        cases this
      refine ⟨(hends.instructions_eq_iff hmem hcommon).2 fun link' hlink' => (hclean f hmem hcommon ⟨link, hlink, hunsupported⟩ link' hlink').1,
        ?_, hmoved⟩
      rw [hother]
      exact (List.Nodup.mem_sdiff_iff hs.nodup_functions).2 ⟨hmem, hmoved⟩
    · refine ⟨(List.mem_filter.1 hf).1, ?_⟩
      rw [hother]
      exact fun h => ((List.Nodup.mem_sdiff_iff hs.nodup_functions).1 h).2 hf
    · obtain ⟨hmem, hmoved⟩ := List.mem_filter.1 hf
      exact fun link hlink hexternal => hends.isInTarget hs hmem hmoved hlink hexternal
    · rw [hends.mem_regions]
      constructor
      · rintro ⟨f, hf, hcommon, link, hlink, hregion⟩
        by_cases hunsupported : ∃ link ∈ s.instructions f, program.isUnsupported s link = true
        · obtain ⟨g, hg, hmoved, link', hlink', hregion'⟩ := (hclean f hf hcommon hunsupported link hlink).2 region hregion
          exact ⟨g, List.mem_filter.2 ⟨hg, hmoved⟩, link', hlink', hregion'⟩
        · have hmoved : program.isMoved s f = true := isMoved_iff.2 ⟨hcommon, by simpa using hunsupported⟩
          exact ⟨f, List.mem_filter.2 ⟨hf, hmoved⟩, link, (List.takeWhile_sublist _).subset hlink, hregion⟩
      · rintro ⟨f, hf, link, hlink, hregion⟩
        obtain ⟨hmem, hmoved⟩ := List.mem_filter.1 hf
        exact ⟨f, hmem, (isMoved_iff.1 hmoved).1, link, (supportedPart_of_isMoved hmoved).symm ▸ hlink, hregion⟩
    · rw [hother]
      exact fun h => ((List.Nodup.mem_sdiff_iff hs.nodup_regions).1 h).2 hregion

end

/-! ## A function that calls one that only the other module has -/

def sample : Program ℕ ℕ ℕ ℕ where
  sections _ := []
  parent _ := 0
  writable _ := false
  type _ := .unknown
  address _ := 0
  aliasMap _ := none
  pltList := []
  pltName _ := ""
  pltAddress _ := 0

/-- Of the other module, `f` calls `g` and then `h`. -/
def sampleState : State ℕ ℕ ℕ ℕ where
  name f := ["f", "g", "f", "g", "h"].getD f ""
  symbolName f := ["f", "g", "f", "g", "h"][f]?
  instructions f := if f = 2 then [some (.normalLink (some 3) withinModule), none, some (.normalLink (some 4) withinModule)] else []
  sectionName _ := ""
  module := ⟨[0, 1], []⟩
  otherModule := ⟨[2, 3, 4], []⟩

theorem wellFormed_sampleState : sample.WellFormed sampleState := by
  refine ⟨by decide, by decide, fun name f h => ?_⟩
  cases h

theorem isSome_visit_sample : (sample.visit sampleState).isSome = true := by decide

theorem merged_iff_sample : ∃ s', sample.visit sampleState = some s' ∧
    ((∃ functions regions, sample.Merged sampleState s' functions regions) ↔ sample.LeavesNoTrace sampleState) := by
  obtain ⟨s', hvisit⟩ := Option.isSome_iff_exists.1 isSome_visit_sample
  exact ⟨s', hvisit, merged_iff wellFormed_sampleState hvisit⟩

/-- The call of `g` is redirected although the call of `h` is not supported. -/
theorem not_merged_sample : ∃ s', sample.visit sampleState = some s' ∧
    ¬ ∃ functions regions, sample.Merged sampleState s' functions regions := by
  obtain ⟨s', hvisit⟩ := Option.isSome_iff_exists.1 isSome_visit_sample
  refine ⟨s', hvisit, ?_⟩
  rintro ⟨functions, regions, hmerged⟩
  obtain ⟨regions', hends⟩ := exists_ends wellFormed_sampleState.nodup_functions hvisit
  have hmem : 2 ∈ sampleState.otherModule.functionList := by decide
  have hcommon : sample.isCommon sampleState 2 = true := by decide
  have hrejected : sample.IsRejected sampleState 2 := (isRejected_iff hmem hcommon (hends.isSome 2 hmem hcommon)).2 (by decide)
  have hkept := (hends.instructions_eq_iff hmem hcommon).1 (hmerged.rejected 2 hrejected).1
    (some (.normalLink (some 3) withinModule)) (by decide) (.normalLink (some 3) withinModule) rfl (by decide)
  have hfound : sample.findFunctionInModule sampleState (sampleState.name 3) = some 1 := by decide
  cases hfound.symm.trans hkept

end Program

end Egalito.Pass.TwocodeMerge
