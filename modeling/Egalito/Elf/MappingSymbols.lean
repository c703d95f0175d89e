import Egalito.Elf.SymbolAlias
/-!
# Mapping symbols

`SymbolListWithMapping` of `elf/symbol.cpp`: the mapping symbols of a symbol list in the
order of their addresses, and the search for the nearest one below and above another
symbol. The section is checked while the list is stepped through.
-/

open Egalito.Lib

namespace Egalito.Elf

/-! ## The list -/

def Sorted (l : List Symbol) : Prop := l.Pairwise fun a b => a.address ≤ b.address

/-- `std::sort` by the address. -/
def buildMappingList (symbols : List Symbol) : List Symbol :=
  (symbols.filter fun sym => sym.name.head? = some '$').mergeSort fun a b => a.address ≤ b.address

theorem sorted_buildMappingList (symbols : List Symbol) : Sorted (buildMappingList symbols) := by
  have hsorted : (buildMappingList symbols).Pairwise fun a b => decide (a.address ≤ b.address) := by
    refine List.pairwise_mergeSort (fun a b c hab hbc => ?_) (fun a b => ?_) _
    · rw [decide_eq_true_eq] at hab hbc ⊢
      exact UInt64.le_trans hab hbc
    · rw [Bool.or_eq_true, decide_eq_true_eq, decide_eq_true_eq]
      exact UInt64.le_total a.address b.address
  exact hsorted.imp of_decide_eq_true

/-! ## The searches -/

section Searches

variable (sortedMappingList : List Symbol) (symbol : Symbol)

/-- `std::lower_bound`: the first position whose address is not below the symbol's. -/
def lowerBound : Nat := sortedMappingList.findIdx fun a => !decide (a.address < symbol.address)

/-- `std::upper_bound`: the first position whose address is above the symbol's. -/
def upperBound : Nat := sortedMappingList.findIdx fun b => symbol.address < b.address

def sameSection (symbol it : Symbol) : Bool := it.shndx = symbol.shndx

/-- `while(--it != begin)`, with the check of the section in it. -/
def stepDown : Nat → Option Symbol
  | 0 => none
  | it + 1 =>
    if it = 0 then none
    else match sortedMappingList[it]?.filter (sameSection symbol) with
      | some m => some m
      | none => stepDown it

def findMappingBelowOrAt : Option Symbol :=
  let it := lowerBound sortedMappingList symbol
  match sortedMappingList[it]?.filter fun m => decide (m.address = symbol.address) && sameSection symbol m with
  | some m => some m
  | none => stepDown sortedMappingList symbol it

def findMappingAbove : Option Symbol :=
  (sortedMappingList.drop (upperBound sortedMappingList symbol)).find? (sameSection symbol)

end Searches

/-! ## What the searches should find -/

/-- A mapping symbol of the section with the greatest address not above the symbol's, or none
where there is none. -/
def GreatestNotAbove (l : List Symbol) (symbol : Symbol) : Option Symbol → Prop
  | some m => m ∈ l ∧ sameSection symbol m ∧ m.address ≤ symbol.address ∧
      ∀ other ∈ l, sameSection symbol other → other.address ≤ symbol.address → other.address ≤ m.address
  | none => ∀ other ∈ l, sameSection symbol other → ¬ other.address ≤ symbol.address

/-- A mapping symbol of the section with the least address above the symbol's, or none where there
is none. -/
def LeastAbove (l : List Symbol) (symbol : Symbol) : Option Symbol → Prop
  | some m => m ∈ l ∧ sameSection symbol m ∧ symbol.address < m.address ∧
      ∀ other ∈ l, sameSection symbol other → symbol.address < other.address → m.address ≤ other.address
  | none => ∀ other ∈ l, sameSection symbol other → ¬ symbol.address < other.address

/-- The search finds its way down: the first symbol of the list at the address is of the section; or none
at it is, and if one below it is, then also one that is not the first of the list. -/
def Searchable (l : List Symbol) (symbol : Symbol) : Prop :=
  (∃ m, l.find? (·.address = symbol.address) = some m ∧ sameSection symbol m) ∨
    ((∀ m ∈ l, m.address = symbol.address → ¬ sameSection symbol m) ∧
      ((∀ m ∈ l, m.address < symbol.address → ¬ sameSection symbol m) ∨
        ∃ m ∈ l.tail, m.address < symbol.address ∧ sameSection symbol m))

/-! ## Sorted lists -/

/-- The first of a sorted list that is of the section has the least address of these. -/
theorem least_of_find? {l : List Symbol} {S : Symbol → Bool} {m : Symbol} (hsorted : Sorted l)
    (hfind : l.find? S = some m) : ∀ other ∈ l, S other → m.address ≤ other.address := by
  obtain ⟨-, before, after, rfl, hbefore⟩ := List.find?_eq_some_iff_append.1 hfind
  intro other hother hS
  rcases List.mem_append.1 hother with hmem | hmem
  · exact absurd hS (by simpa using hbefore other hmem)
  · rcases List.mem_cons.1 hmem with rfl | hmem
    · exact UInt64.le_refl _
    · exact List.rel_of_pairwise_cons (List.pairwise_append.1 hsorted).2.1 hmem

theorem greatest_of_find? {l : List Symbol} {S : Symbol → Bool} {m : Symbol} (hsorted : Sorted l)
    (hfind : l.reverse.find? S = some m) : ∀ other ∈ l, S other → other.address ≤ m.address := by
  obtain ⟨-, before, after, hsplit, hbefore⟩ := List.find?_eq_some_iff_append.1 hfind
  have hl : l = after.reverse ++ m :: before.reverse := by
    rw [← List.reverse_reverse l, hsplit]
    simp
  subst hl
  intro other hother hS
  rcases List.mem_append.1 hother with hmem | hmem
  · exact (List.pairwise_append.1 hsorted).2.2 other hmem m List.mem_cons_self
  · rcases List.mem_cons.1 hmem with rfl | hmem
    · exact UInt64.le_refl _
    · exact absurd hS (by simpa using hbefore other (List.mem_reverse.1 hmem))

/-- A condition that holds from some address on cuts a sorted list in two. -/
theorem exists_split {l : List Symbol} (hsorted : Sorted l) {p : Symbol → Bool}
    (hp : ∀ a b : Symbol, a.address ≤ b.address → p a → p b) :
    ∃ before rest, l = before ++ rest ∧ l.findIdx p = before.length ∧ (∀ m ∈ before, ¬ p m) ∧ ∀ m ∈ rest, p m := by
  induction l with
  | nil => exact ⟨[], [], rfl, rfl, by simp, by simp⟩
  | cons m l ih =>
    have hcons := List.pairwise_cons.1 hsorted
    by_cases hm : p m
    · refine ⟨[], m :: l, rfl, by simp [List.findIdx_cons, hm], by simp, List.forall_mem_cons.2 ⟨hm, ?_⟩⟩
      exact fun other hother => hp m other (hcons.1 other hother) hm
    · obtain ⟨before, rest, rfl, hidx, hbefore, hrest⟩ := ih hcons.2
      refine ⟨m :: before, rest, rfl, ?_, List.forall_mem_cons.2 ⟨hm, hbefore⟩, hrest⟩
      simp [List.findIdx_cons, hm, hidx]

/-! ## Upwards -/

theorem findMappingAbove_spec {l : List Symbol} (hsorted : Sorted l) (symbol : Symbol) :
    LeastAbove l symbol (findMappingAbove l symbol) := by
  obtain ⟨before, rest, rfl, hidx, hbefore, hrest⟩ :=
    exists_split hsorted (p := fun b => decide (symbol.address < b.address)) fun a b hab ha => by
      simp only [decide_eq_true_eq] at ha ⊢
      exact UInt64.lt_of_lt_of_le ha hab
  simp only [decide_eq_true_eq] at hbefore hrest
  have hmem : ∀ other ∈ before ++ rest, symbol.address < other.address → other ∈ rest := by
    intro other hother habove
    exact (List.mem_append.1 hother).resolve_left fun h => hbefore other h habove
  rw [findMappingAbove, upperBound, hidx, List.drop_left]
  cases hfind : rest.find? (sameSection symbol) with
  | none =>
    intro other hother hsection habove
    exact List.find?_eq_none.1 hfind other (hmem other hother habove) hsection
  | some m =>
    have hm := List.mem_of_find?_eq_some hfind
    refine ⟨List.mem_append_right _ hm, List.find?_some hfind, hrest m hm, fun other hother hsection habove => ?_⟩
    exact least_of_find? (List.pairwise_append.1 hsorted).2.1 hfind other (hmem other hother habove) hsection

/-! ## Downwards -/

/-- The loop goes down from the last symbol before a position to the second of the list. -/
theorem stepDown_append (before rest : List Symbol) (symbol : Symbol) :
    stepDown (before ++ rest) symbol before.length = before.tail.reverse.find? (sameSection symbol) := by
  induction before using List.reverseRecOn generalizing rest with
  | nil => rfl
  | append_singleton before m ih =>
    rw [List.length_append, List.length_singleton, stepDown]
    cases before with
    | nil => rfl
    | cons first before =>
      rw [if_neg (by simp), List.append_assoc, List.getElem?_append_right (Nat.le_refl _), Nat.sub_self]
      simp only [List.singleton_append, List.getElem?_cons_zero, List.cons_append, List.tail_cons,
        List.reverse_append, List.reverse_cons, List.reverse_nil, List.nil_append, List.find?_cons]
      by_cases hm : sameSection symbol m
      · simp [Option.filter, hm]
      · simp only [Option.filter, hm]
        exact ih (m :: rest)

section Below

variable {below rest : List Symbol} {symbol : Symbol} (hsorted : Sorted (below ++ rest))
  (hbelow : ∀ m ∈ below, m.address < symbol.address) (hrest : ∀ m ∈ rest, symbol.address ≤ m.address)

include hsorted hbelow hrest

/-- The first symbol that is not below is the first of the list at the address, if there is one. -/
theorem find?_at : (below ++ rest).find? (·.address = symbol.address) = rest[0]?.filter (·.address = symbol.address) := by
  have hnone : below.find? (·.address = symbol.address) = none := by
    rw [List.find?_eq_none]
    intro m hm heq
    have hlt := hbelow m hm
    rw [of_decide_eq_true heq] at hlt
    exact UInt64.lt_irrefl _ hlt
  rw [List.find?_append, hnone, Option.none_or]
  cases rest with
  | nil => rfl
  | cons m rest =>
    rw [List.find?_cons, List.getElem?_cons_zero]
    by_cases hm : m.address = symbol.address
    · simp [Option.filter, hm]
    · simp only [hm, decide_false, Option.filter, Bool.false_eq_true, if_false]
      rw [List.find?_eq_none]
      intro other hother heq
      rw [decide_eq_true_eq] at heq
      have hle := List.rel_of_pairwise_cons (List.pairwise_append.1 hsorted).2.1 hother
      rw [heq] at hle
      exact hm (UInt64.le_antisymm hle (hrest m List.mem_cons_self))

omit hsorted in
theorem mem_below {m : Symbol} (hm : m ∈ below ++ rest) (hlt : m.address < symbol.address) : m ∈ below :=
  (List.mem_append.1 hm).resolve_right fun h => UInt64.not_lt.2 (hrest m h) hlt

/-- The loop finds the greatest symbol below unless it is the first of the list or one is at the address. -/
theorem greatest_stepDown :
    GreatestNotAbove (below ++ rest) symbol (below.tail.reverse.find? (sameSection symbol)) ↔
      (∀ m ∈ below ++ rest, m.address = symbol.address → ¬ sameSection symbol m) ∧
        ((∀ m ∈ below ++ rest, m.address < symbol.address → ¬ sameSection symbol m) ∨
          ∃ m ∈ (below ++ rest).tail, m.address < symbol.address ∧ sameSection symbol m) := by
  have hold : ∀ other ∈ below ++ rest, sameSection symbol other → other.address ≤ symbol.address →
      (∀ m ∈ below ++ rest, m.address = symbol.address → ¬ sameSection symbol m) → other ∈ below := by
    intro other hother hsection hle hat
    refine mem_below hbelow hrest hother (UInt64.lt_of_le_of_ne hle fun heq => ?_)
    exact hat other hother heq hsection
  have htail : below.tail ⊆ below := List.tail_subset below
  cases hfind : below.tail.reverse.find? (sameSection symbol) with
  | none =>
    have hno : ∀ m ∈ below.tail, ¬ sameSection symbol m := fun m hm =>
      List.find?_eq_none.1 hfind m (List.mem_reverse.2 hm)
    constructor
    · intro hnone
      exact ⟨fun m hm heq hsection => hnone m hm hsection (UInt64.le_of_eq heq),
        Or.inl fun m hm hlt hsection => hnone m hm hsection (UInt64.le_of_lt hlt)⟩
    · rintro ⟨hat, hno' | ⟨m, hm, hlt, hsection⟩⟩ other hother hsection' hle
      · have hmem := hold other hother hsection' hle hat
        exact hno' other hother (hbelow other hmem) hsection'
      · have hmem : m ∈ below.tail := by
          cases below with
          | nil => exact absurd (mem_below hbelow hrest (List.mem_of_mem_tail hm) hlt) List.not_mem_nil
          | cons first below =>
            rcases List.mem_append.1 hm with hmem | hmem
            · exact hmem
            · exact absurd hlt (UInt64.not_lt.2 (hrest m hmem))
        exact hno m hmem hsection
  | some m =>
    have hm : m ∈ below.tail := List.mem_reverse.1 (List.mem_of_find?_eq_some hfind)
    have hsection := List.find?_some hfind
    have hlt := hbelow m (htail hm)
    constructor
    · rintro ⟨-, -, -, hgreatest⟩
      refine ⟨fun other hother heq hsection' => ?_, Or.inr ⟨m, ?_, hlt, hsection⟩⟩
      · have hle := hgreatest other hother hsection' (UInt64.le_of_eq heq)
        rw [heq] at hle
        exact UInt64.not_lt.2 hle hlt
      · rw [List.tail_append_of_ne_nil (List.ne_nil_of_mem (htail hm))]
        exact List.mem_append_left _ hm
    · rintro ⟨hat, -⟩
      refine ⟨List.mem_append_left _ (htail hm), hsection, UInt64.le_of_lt hlt, fun other hother hsection' hle => ?_⟩
      have hmem := hold other hother hsection' hle hat
      have hsortedBelow := (List.pairwise_append.1 hsorted).1
      cases below with
      | nil => exact absurd hmem List.not_mem_nil
      | cons first below =>
        rcases List.mem_cons.1 hmem with rfl | hmem
        · exact List.rel_of_pairwise_cons hsortedBelow hm
        · exact greatest_of_find? (List.pairwise_cons.1 hsortedBelow).2 hfind other hmem hsection'

end Below

/-- Where the search downwards finds the right symbol. -/
theorem findMappingBelowOrAt_iff {l : List Symbol} (hsorted : Sorted l) (symbol : Symbol) :
    GreatestNotAbove l symbol (findMappingBelowOrAt l symbol) ↔ Searchable l symbol := by
  obtain ⟨below, rest, rfl, hidx, hbelow, hrest⟩ :=
    exists_split hsorted (p := fun a => !decide (a.address < symbol.address)) fun a b hab ha => by
      simp only [Bool.not_eq_true', decide_eq_false_iff_not, UInt64.not_lt] at ha ⊢
      exact UInt64.le_trans ha hab
  simp only [Bool.not_eq_true', decide_eq_false_iff_not, UInt64.not_lt, UInt64.not_le] at hbelow hrest
  rw [findMappingBelowOrAt, lowerBound, hidx, List.getElem?_append_right (Nat.le_refl _), Nat.sub_self, Searchable,
    find?_at hsorted hbelow hrest]
  cases hfirst : rest[0]?.filter fun m => decide (m.address = symbol.address) && sameSection symbol m with
  | some m =>
    obtain ⟨hm, hboth⟩ := Option.filter_eq_some_iff.1 hfirst
    simp only [Bool.and_eq_true, decide_eq_true_eq] at hboth
    refine iff_of_true ⟨?_, hboth.2, UInt64.le_of_eq hboth.1, fun other _ _ hle => hboth.1 ▸ hle⟩ ?_
    · exact List.mem_append_right _ (List.mem_of_getElem? hm)
    · exact Or.inl ⟨m, Option.filter_eq_some_iff.2 ⟨hm, by simpa using hboth.1⟩, hboth.2⟩
  | none =>
    dsimp only
    rw [stepDown_append, greatest_stepDown hsorted hbelow hrest]
    refine (or_iff_right ?_).symm
    rintro ⟨m, hm, hsection⟩
    obtain ⟨hm, hat⟩ := Option.filter_eq_some_iff.1 hm
    exact Option.filter_eq_none_iff.1 hfirst m hm (by simpa using ⟨of_decide_eq_true hat, hsection⟩)

/-- Both searches: upwards always, and downwards where the way down leads to the symbol. -/
theorem findMapping_iff {l : List Symbol} (hsorted : Sorted l) (symbol : Symbol) :
    GreatestNotAbove l symbol (findMappingBelowOrAt l symbol) ∧ LeastAbove l symbol (findMappingAbove l symbol) ↔
      Searchable l symbol := by
  rw [and_iff_left (findMappingAbove_spec hsorted symbol)]
  exact findMappingBelowOrAt_iff hsorted symbol

/-! ## Code and data of one section -/

/-- A mapping symbol `$x` or `$d` of the first section. -/
def mappingAt (address : UInt64) (letter : Char) : Symbol := ⟨address, 0, ['$', letter], .noType, .bindLocal, 1⟩

theorem findMapping_iff_two :
    GreatestNotAbove [mappingAt 0x1000 'x', mappingAt 0x1020 'd'] (mappingAt 0x1030 'x')
        (findMappingBelowOrAt [mappingAt 0x1000 'x', mappingAt 0x1020 'd'] (mappingAt 0x1030 'x')) ∧
      LeastAbove [mappingAt 0x1000 'x', mappingAt 0x1020 'd'] (mappingAt 0x1030 'x')
        (findMappingAbove [mappingAt 0x1000 'x', mappingAt 0x1020 'd'] (mappingAt 0x1030 'x')) := by
  refine (findMapping_iff (by simp [Sorted, mappingAt]) _).2 (Or.inr ⟨?_, Or.inr ⟨mappingAt 0x1020 'd', ?_⟩⟩)
  · simp [mappingAt]
  · simp [mappingAt, sameSection]

/-- The only mapping symbol of a list is not found from above it. -/
theorem first_mapping_not_found :
    ¬ ∀ (l : List Symbol) (symbol : Symbol), Sorted l →
      GreatestNotAbove l symbol (findMappingBelowOrAt l symbol) ∧ LeastAbove l symbol (findMappingAbove l symbol) := by
  intro h
  have hnone := (h [mappingAt 0x1000 'x'] (mappingAt 0x1010 'x') (List.pairwise_singleton _ _)).1
  have hfound : findMappingBelowOrAt [mappingAt 0x1000 'x'] (mappingAt 0x1010 'x') = none := by decide
  rw [hfound] at hnone
  exact hnone (mappingAt 0x1000 'x') (List.mem_singleton_self _) rfl (by decide)

end Egalito.Elf
