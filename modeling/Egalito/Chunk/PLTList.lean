import Egalito.Lib.Decimal
import Mathlib.Data.BitVec
/-!
# PLT stubs

The x86_64 parsers of `chunk/plt.cpp`. An entry of a PLT section is a jump
through a slot of the GOT, behind an `endbr64` and a `bnd` prefix that may be
there; the slot is looked up among the relocations.
-/

open Egalito.Lib

namespace Egalito.PLTList

abbrev Address := BitVec 64

/-- A section with its `sh_addr` and `sh_size`, and the mapped file from its first byte on. -/
structure PLTSection where
  addr : Address
  size : Nat
  byte : Nat → BitVec 8

namespace PLTSection

variable (sec : PLTSection)

def uint16At (entry : Nat) : BitVec 16 := sec.byte (entry + 1) ++ sec.byte entry

def uint32At (entry : Nat) : BitVec 32 :=
  sec.byte (entry + 3) ++ sec.byte (entry + 2) ++ sec.byte (entry + 1) ++ sec.byte entry

end PLTSection

structure Reloc (σ : Type) where
  symbol : Option σ
  addend : Address

/-- The symbol that the external symbol of a trampoline is made from; one is made up when there is none. -/
inductive StubSymbol (σ : Type)
  | known (symbol : σ)
  | unresolved (value : Address) (name : List Char)

structure PLTTrampoline (σ : Type) where
  address : Address
  symbol : StubSymbol σ
  gotPLTEntry : Address
  pltGot : Bool

section Parse

variable {σ : Type} (sec : PLTSection) (registry : Address → Option (Reloc σ))
  (symbolList : Option (Address → Option σ))

/-- An `endbr64` is skipped, then a `bnd` prefix: where the jump is, and how far its end is from the entry. -/
def skipPrefixes (entry : Nat) : Nat × Address :=
  let (entry, valueOffset) := if sec.uint32At entry = 0xfa1e0ff3 then (entry + 4, (6 + 4 : Address)) else (entry, 6)
  if sec.byte entry = 0xf2 then (entry + 1, valueOffset + 1) else (entry, valueOffset)

/-- The slot of an entry, if it is an indirect jump; the displacement is read as an `unsigned int`. -/
def entryValue (entry : Nat) (pltAddress : Address) : Option Address :=
  let (entry, valueOffset) := skipPrefixes sec entry
  if sec.uint16At entry = 0x25ff then some ((sec.uint32At (entry + 2)).setWidth 64 + (pltAddress + valueOffset))
  else none

def newSymbol (value pltAddress : Address) : StubSymbol σ :=
  .unresolved value ("unresolved_plt_".toList ++ decimal pltAddress.toNat)

/-- The symbol for the relocation `r` in `parseEntryLazy`: its own, or one at the address in its addend. -/
def lazySymbol (r : Reloc σ) (value pltAddress : Address) : StubSymbol σ :=
  match r.symbol.orElse fun _ => symbolList.bind fun find => find r.addend with
  | some symbol => .known symbol
  | none => newSymbol value pltAddress

/-- `parseEntryLazy` on the entry at offset `i`. -/
def parseEntryLazy (i : Nat) : Option (PLTTrampoline σ) := do
  let pltAddress := sec.addr + BitVec.ofNat 64 i
  let value ← entryValue sec i pltAddress
  let r ← registry value
  return ⟨pltAddress, lazySymbol symbolList r value pltAddress, value, false⟩

/-- The symbol for the relocation `r` in `parsePLTNonLazy`. -/
def nonLazySymbol (r : Reloc σ) (value pltAddress : Address) : StubSymbol σ :=
  match r.symbol with
  | some symbol => .known symbol
  | none => newSymbol value pltAddress

/-- One round of `parsePLTNonLazy`. -/
def parseEntryNonLazy (i : Nat) : Option (PLTTrampoline σ) := do
  let pltAddress := sec.addr + BitVec.ofNat 64 i
  let value ← entryValue sec i pltAddress
  let r ← registry value
  return ⟨pltAddress, nonLazySymbol r value pltAddress, value, true⟩

/-- The offsets of the entries from `start` on. -/
def offsets (start entrySize : Nat) : List Nat := List.range' start ((sec.size - start + entrySize - 1) / entrySize) entrySize

def parsePLTLazy (sectionOffset entrySize : Nat) : List (PLTTrampoline σ) :=
  (offsets sec sectionOffset entrySize).filterMap (parseEntryLazy sec registry symbolList)

def parsePLTNonLazy (entrySize : Nat) : List (PLTTrampoline σ) :=
  (offsets sec 0 entrySize).filterMap (parseEntryNonLazy sec registry)

end Parse

/-! ## Stubs -/

/-- A stub: `endbr64` or not, `bnd` or not, and `jmpq *disp(%rip)`. -/
structure Stub where
  endbr64 : Bool
  bnd : Bool
  disp : BitVec 32

namespace Stub

variable (stub : Stub)

def prefixes : List (BitVec 8) :=
  (if stub.endbr64 then [0xf3, 0x0f, 0x1e, 0xfa] else []) ++ if stub.bnd then [0xf2] else []

def encode : List (BitVec 8) :=
  stub.prefixes ++ [0xff, 0x25, stub.disp.extractLsb' 0 8, stub.disp.extractLsb' 8 8, stub.disp.extractLsb' 16 8,
    stub.disp.extractLsb' 24 8]

/-- What the jump of the stub at an address reads: the address behind it, displaced by a signed number. -/
def gotSlot (address : Address) : Address := address + BitVec.ofNat 64 stub.encode.length + stub.disp.signExtend 64

def At (sec : PLTSection) (i : Nat) : Prop := ∀ k b, stub.encode[k]? = some b → sec.byte (i + k) = b

end Stub

/-- Both parsers take the slot at `slot` for the one of the entry at offset `i`. -/
def Determines (sec : PLTSection) (i : Nat) (slot : Address) : Prop :=
  ∀ (σ : Type) (registry : Address → Option (Reloc σ)) (symbolList : Option (Address → Option σ)),
    (parseEntryLazy sec registry symbolList i).map PLTTrampoline.gotPLTEntry = (registry slot).map (fun _ => slot) ∧
      (parseEntryNonLazy sec registry i).map PLTTrampoline.gotPLTEntry = (registry slot).map fun _ => slot

section Exact

variable {sec : PLTSection} {i : Nat} {stub : Stub} {slot : Address}

theorem bytes_eq (disp : BitVec 32) : disp.extractLsb' 24 8 ++ disp.extractLsb' 16 8 ++ disp.extractLsb' 8 8 ++
    disp.extractLsb' 0 8 = disp := by
  ext k hk
  simp only [BitVec.getElem_append, BitVec.getElem_extractLsb']
  grind

theorem byte_of_uint32At {e : Nat} (h : sec.uint32At e = 0xfa1e0ff3) : sec.byte e = 0xf3 := by
  have hlow : (sec.uint32At e).extractLsb' 0 8 = sec.byte e := by
    ext k hk
    rw [BitVec.getElem_extractLsb', Nat.zero_add]
    exact BitVec.getLsbD_append.trans (by simp [hk])
  rw [← hlow, h]
  decide

theorem skipPrefixes_stub (h : stub.At sec i) :
    skipPrefixes sec i = (i + stub.prefixes.length, BitVec.ofNat 64 stub.encode.length) := by
  obtain ⟨endbr64, bnd, disp⟩ := stub
  cases endbr64 with
  | true =>
    have hword : sec.uint32At i = 0xfa1e0ff3 := by
      have h₀ := h 0 0xf3 rfl
      have h₁ := h 1 0x0f rfl
      have h₂ := h 2 0x1e rfl
      have h₃ := h 3 0xfa rfl
      rw [Nat.add_zero] at h₀
      rw [PLTSection.uint32At, h₀, h₁, h₂, h₃]
      decide
    simp only [skipPrefixes, if_pos hword]
    cases bnd with
    | true =>
      rw [if_pos (h 4 0xf2 rfl)]
      rfl
    | false =>
      rw [if_neg (by rw [h 4 0xff rfl]; decide)]
      rfl
  | false =>
    have hword : ∀ b, sec.byte i = b → b ≠ 0xf3 → sec.uint32At i ≠ 0xfa1e0ff3 := fun b hb hne he =>
      hne (hb ▸ byte_of_uint32At he)
    simp only [skipPrefixes]
    cases bnd with
    | true =>
      have h₀ : sec.byte i = 0xf2 := h 0 0xf2 rfl
      rw [if_neg (hword _ h₀ (by decide)), if_pos h₀]
      rfl
    | false =>
      have h₀ : sec.byte i = 0xff := h 0 0xff rfl
      rw [if_neg (hword _ h₀ (by decide)), if_neg (by rw [h₀]; decide)]
      rfl

/-- The slot that is found has the displacement as an unsigned number. -/
theorem entryValue_stub (h : stub.At sec i) (address : Address) :
    entryValue sec i address = some (address + BitVec.ofNat 64 stub.encode.length + stub.disp.setWidth 64) := by
  have hbyte : ∀ k b, [0xff, 0x25, stub.disp.extractLsb' 0 8, stub.disp.extractLsb' 8 8, stub.disp.extractLsb' 16 8,
      stub.disp.extractLsb' 24 8][k]? = some b → sec.byte (i + stub.prefixes.length + k) = b := by
    intro k b hk
    rw [Nat.add_assoc]
    refine h _ b ?_
    rw [Stub.encode, List.getElem?_append_right (Nat.le_add_right ..), Nat.add_sub_cancel_left]
    exact hk
  have hjump : sec.uint16At (i + stub.prefixes.length) = 0x25ff := by
    rw [PLTSection.uint16At, hbyte 1 0x25 rfl, ← Nat.add_zero (i + stub.prefixes.length), hbyte 0 0xff rfl]
    decide
  have hdisp : sec.uint32At (i + stub.prefixes.length + 2) = stub.disp := by
    have h₂ := hbyte 2 _ rfl
    have h₃ := hbyte 3 _ rfl
    have h₄ := hbyte 4 _ rfl
    have h₅ := hbyte 5 _ rfl
    simp only [PLTSection.uint32At, Nat.add_assoc] at h₂ h₃ h₄ h₅ ⊢
    rw [h₂, h₃, h₄, h₅, bytes_eq]
  simp only [entryValue, skipPrefixes_stub h]
  rw [if_pos hjump, hdisp, BitVec.add_comm]

theorem setWidth_eq_signExtend_iff (disp : BitVec 32) : disp.setWidth 64 = disp.signExtend 64 ↔ 0 ≤ disp.toInt := by
  rw [← BitVec.toInt_inj, BitVec.toInt_signExtend_of_le (by decide), BitVec.toInt_setWidth]
  have hlt := disp.isLt
  rw [Int.bmod_eq_of_le (by omega) (by omega), BitVec.toInt_eq_toNat_cond]
  split <;> omega

/-- A parser that knows the slot by its value. -/
theorem determines_of_value {value : Address} (h : entryValue sec i (sec.addr + BitVec.ofNat 64 i) = some value) :
    Determines sec i slot ↔ value = slot := by
  constructor
  · intro hall
    have hreloc := (hall Unit (fun a => if a = slot then some ⟨none, 0⟩ else none) none).2
    simp only [parseEntryNonLazy, h, Option.bind_eq_bind, Option.bind_some, if_true] at hreloc
    by_contra hne
    rw [if_neg hne] at hreloc
    cases hreloc
  · rintro rfl σ registry symbolList
    simp only [parseEntryLazy, parseEntryNonLazy, h, Option.bind_eq_bind, Option.bind_some]
    cases registry value <;> exact ⟨rfl, rfl⟩

/-- The slot of a stub is found when its displacement is not negative, and only then. -/
theorem determines_gotSlot_iff (h : stub.At sec i) :
    Determines sec i (stub.gotSlot (sec.addr + BitVec.ofNat 64 i)) ↔ 0 ≤ stub.disp.toInt := by
  rw [determines_of_value (entryValue_stub h _), Stub.gotSlot, BitVec.add_right_inj, setWidth_eq_signExtend_iff]

/-- A section of stubs whose displacements are not negative: the trampolines are for the slots that have a relocation. -/
theorem parse_slots {σ : Type} (registry : Address → Option (Reloc σ)) (symbolList : Option (Address → Option σ))
    (start entrySize : Nat) (stubs : Nat → Stub) (h : ∀ i ∈ offsets sec start entrySize, (stubs i).At sec i)
    (hpos : ∀ i ∈ offsets sec start entrySize, 0 ≤ (stubs i).disp.toInt) :
    (parsePLTLazy sec registry symbolList start entrySize).map PLTTrampoline.gotPLTEntry =
      (offsets sec start entrySize).filterMap fun i =>
        let slot := (stubs i).gotSlot (sec.addr + BitVec.ofNat 64 i)
        (registry slot).map fun _ => slot := by
  rw [parsePLTLazy, List.map_filterMap]
  refine List.filterMap_congr fun i hi => ?_
  have hdetermines : Determines sec i ((stubs i).gotSlot (sec.addr + BitVec.ofNat 64 i)) := by
    rw [determines_of_value (entryValue_stub (h i hi) _), Stub.gotSlot, BitVec.add_right_inj, setWidth_eq_signExtend_iff]
    exact hpos i hi
  exact (hdetermines σ registry symbolList).1

end Exact

/-- `jmpq *-0x10(%rip)` at `0x401020`, which reads its slot at `0x401016`. -/
def backwardSection : PLTSection where
  addr := 0x401020
  size := 16
  byte i := ([0xff, 0x25, 0xf0, 0xff, 0xff, 0xff] : List (BitVec 8)).getD i 0

def backwardStub : Stub := ⟨false, false, 0xfffffff0⟩

theorem backwardStub_at : backwardStub.At backwardSection 0 := by
  intro k b hk
  have hlt : k < 6 := (List.getElem?_eq_some_iff.1 hk).1
  interval_cases k <;> cases hk <;> rfl

theorem backward_slot_not_found : backwardStub.At backwardSection 0 ∧
    ¬ Determines backwardSection 0 (backwardStub.gotSlot backwardSection.addr) := by
  refine ⟨backwardStub_at, fun h => ?_⟩
  have hvalue : entryValue backwardSection 0 (backwardSection.addr + BitVec.ofNat 64 0) = some 0x100401016 := by decide
  rw [determines_of_value hvalue] at h
  exact absurd h (by decide)

/-- The slot behind the section, as linkers lay it out. -/
def forwardSection : PLTSection where
  addr := 0x401020
  size := 16
  byte i := ([0xf3, 0x0f, 0x1e, 0xfa, 0xf2, 0xff, 0x25, 0xe0, 0x2f, 0, 0] : List (BitVec 8)).getD i 0

theorem forward_slot_found : Determines forwardSection 0 0x40400b := by
  have hstub : Stub.At ⟨true, true, 0x2fe0⟩ forwardSection 0 := by
    intro k b hk
    have hlt : k < 11 := (List.getElem?_eq_some_iff.1 hk).1
    interval_cases k <;> cases hk <;> rfl
  exact (determines_gotSlot_iff hstub).2 (by decide)

end Egalito.PLTList
