import Egalito.Lib.Patterns
/-!
# The A64 instructions and their registers

The instruction classes of ARMv8-A, the bits that they fix, and where the
general-purpose registers that they read and write are. Register 31 is the stack
pointer and the zero register, as in `AARCH64GPRegister`.
-/

open Egalito.Lib

namespace Egalito.A64

/-- `AARCH64GPRegister::R0` to `R31`. -/
abbrev Register := BitVec 5

/-- `LR`. -/
def linkRegister : Register := 30

/-- The register field that begins at a bit. -/
def field (word : BitVec 32) (pos : Nat) : Register := word.extractLsb' pos 5

/-! ## The classes -/

/-- How a load or store of one register addresses memory. -/
inductive Addressing
  | unscaled
  | post
  | unprivileged
  | pre
  | register
  | unsigned
deriving DecidableEq

/-- How a load or store of two registers addresses memory. -/
inductive PairAddressing
  | noAllocate
  | post
  | offset
  | pre
deriving DecidableEq

inductive InstructionClass
  -- data processing (immediate)
  | pcRelative
  | addSubImmediate
  | logicalImmediate
  | moveWide
  | moveKeep
  | bitfield
  | bitfieldInsert
  | extract
  -- branches, exceptions and system
  | conditionalBranch
  | exception
  | hint
  | sys
  | sysl
  | msr
  | mrs
  | branch
  | branchLink
  | branchRegister
  | branchLinkRegister
  | ret
  | exceptionReturn
  | compareAndBranch
  | testAndBranch
  -- loads and stores
  | storeExclusive
  | storeExclusivePair
  | loadExclusive
  | loadExclusivePair
  | storeRelease
  | loadAcquire
  | simdMultiple
  | simdMultiplePost
  | simdMultiplePostImmediate
  | simdSingle
  | simdSinglePost
  | simdSinglePostImmediate
  | loadLiteral
  | prefetchLiteral
  | simdLiteral
  | storePair (addressing : PairAddressing)
  | loadPair (addressing : PairAddressing)
  | simdPair (addressing : PairAddressing)
  | store (addressing : Addressing)
  | load (addressing : Addressing)
  | prefetch (addressing : Addressing)
  | simd (addressing : Addressing)
  -- data processing (register)
  | logicalShifted
  | addSubShifted
  | addSubExtended
  | addSubCarry
  | conditionalCompareRegister
  | conditionalCompareImmediate
  | conditionalSelect
  | twoSource
  | oneSource
  | threeSource
  | multiplyHigh
  -- data processing (SIMD and floating point)
  | toGeneral
  | fromGeneral
  | simdOnly
deriving DecidableEq

/-! ## Encodings -/

def Addressing.pattern : Addressing → Pattern 32
  | unscaled => ⟨0x3B200C00, 0x38000000⟩
  | post => ⟨0x3B200C00, 0x38000400⟩
  | unprivileged => ⟨0x3B200C00, 0x38000800⟩
  | pre => ⟨0x3B200C00, 0x38000C00⟩
  | register => ⟨0x3B200C00, 0x38200800⟩
  | unsigned => ⟨0x3B000000, 0x39000000⟩

def PairAddressing.pattern : PairAddressing → Pattern 32
  | noAllocate => ⟨0x3B800000, 0x28000000⟩
  | post => ⟨0x3B800000, 0x28800000⟩
  | offset => ⟨0x3B800000, 0x29000000⟩
  | pre => ⟨0x3B800000, 0x29800000⟩

namespace InstructionClass

/-- FCVT, FMOV, SMOV and UMOV to a general-purpose register. -/
def toGeneralPatterns : List (Pattern 32) :=
  [⟨0x7F3E0000, 0x1E180000⟩, ⟨0x7F26FC00, 0x1E200000⟩, ⟨0x7F26FC00, 0x1E240000⟩, ⟨0x7F27FC00, 0x1E260000⟩,
    ⟨0xBFE0FC00, 0x0E002C00⟩, ⟨0xBFE0FC00, 0x0E003C00⟩]

/-- SCVTF, UCVTF, FMOV, DUP and INS from a general-purpose register. -/
def fromGeneralPatterns : List (Pattern 32) :=
  [⟨0x7F3E0000, 0x1E020000⟩, ⟨0x7F26FC00, 0x1E220000⟩, ⟨0x7F27FC00, 0x1E270000⟩, ⟨0xBFE0FC00, 0x0E000C00⟩,
    ⟨0xFFE0FC00, 0x4E001C00⟩]

/-- A word of the class has the bits of one of these. -/
def patterns : InstructionClass → List (Pattern 32)
  | pcRelative => [⟨0x1F000000, 0x10000000⟩]
  | addSubImmediate => [⟨0x1F800000, 0x11000000⟩]
  | logicalImmediate => [⟨0x1F800000, 0x12000000⟩]
  | moveWide => [⟨0x7F800000, 0x12800000⟩, ⟨0x7F800000, 0x52800000⟩]
  | moveKeep => [⟨0x7F800000, 0x72800000⟩]
  | bitfield => [⟨0x7F800000, 0x13000000⟩, ⟨0x7F800000, 0x53000000⟩]
  | bitfieldInsert => [⟨0x7F800000, 0x33000000⟩]
  | extract => [⟨0x7FA00000, 0x13800000⟩]
  | conditionalBranch => [⟨0xFF000010, 0x54000000⟩]
  | exception => [⟨0xFF000000, 0xD4000000⟩]
  | hint => [⟨0xFFF8001F, 0xD500001F⟩]
  | sys => [⟨0xFFF80000, 0xD5080000⟩]
  | sysl => [⟨0xFFF80000, 0xD5280000⟩]
  | msr => [⟨0xFFF00000, 0xD5100000⟩]
  | mrs => [⟨0xFFF00000, 0xD5300000⟩]
  | branch => [⟨0xFC000000, 0x14000000⟩]
  | branchLink => [⟨0xFC000000, 0x94000000⟩]
  | branchRegister => [⟨0xFFFFFC1F, 0xD61F0000⟩]
  | branchLinkRegister => [⟨0xFFFFFC1F, 0xD63F0000⟩]
  | ret => [⟨0xFFFFFC1F, 0xD65F0000⟩]
  | exceptionReturn => [⟨0xFFFFFFFF, 0xD69F03E0⟩, ⟨0xFFFFFFFF, 0xD6BF03E0⟩]
  | compareAndBranch => [⟨0x7E000000, 0x34000000⟩]
  | testAndBranch => [⟨0x7E000000, 0x36000000⟩]
  | storeExclusive => [⟨0x3FE00000, 0x08000000⟩]
  | storeExclusivePair => [⟨0xBFE00000, 0x88200000⟩]
  | loadExclusive => [⟨0x3FE00000, 0x08400000⟩]
  | loadExclusivePair => [⟨0xBFE00000, 0x88600000⟩]
  | storeRelease => [⟨0x3FE08000, 0x08808000⟩]
  | loadAcquire => [⟨0x3FE08000, 0x08C08000⟩]
  | simdMultiple => [⟨0xBFBF0000, 0x0C000000⟩]
  | simdMultiplePost => [⟨0xBFA00000, 0x0C800000⟩]
  | simdMultiplePostImmediate => [⟨0xBFBF0000, 0x0C9F0000⟩]
  | simdSingle => [⟨0xBF9F0000, 0x0D000000⟩]
  | simdSinglePost => [⟨0xBF800000, 0x0D800000⟩]
  | simdSinglePostImmediate => [⟨0xBF9F0000, 0x0D9F0000⟩]
  | loadLiteral => [⟨0xBF000000, 0x18000000⟩, ⟨0xFF000000, 0x98000000⟩]
  | prefetchLiteral => [⟨0xFF000000, 0xD8000000⟩]
  | simdLiteral => [⟨0x3F000000, 0x1C000000⟩]
  | storePair addressing => [addressing.pattern.meet ⟨0x44400000, 0⟩]
  | loadPair addressing => addressing.pattern.meet ⟨0x44400000, 0x00400000⟩ ::
    if addressing = .noAllocate then [] else [addressing.pattern.meet ⟨0xC4400000, 0x40400000⟩]
  | simdPair addressing => [addressing.pattern.meet ⟨0x04000000, 0x04000000⟩]
  | store addressing => [addressing.pattern.meet ⟨0x04C00000, 0⟩]
  | load addressing => [addressing.pattern.meet ⟨0x04C00000, 0x00400000⟩, addressing.pattern.meet ⟨0x84C00000, 0x00800000⟩,
    addressing.pattern.meet ⟨0xC4C00000, 0x80800000⟩, addressing.pattern.meet ⟨0x84C00000, 0x00C00000⟩]
  | prefetch addressing =>
    if addressing = .unscaled ∨ addressing = .register ∨ addressing = .unsigned then [addressing.pattern.meet ⟨0xC4C00000, 0xC0800000⟩]
    else []
  | simd addressing => if addressing = .unprivileged then [] else [addressing.pattern.meet ⟨0x04000000, 0x04000000⟩]
  | logicalShifted => [⟨0x1F000000, 0x0A000000⟩]
  | addSubShifted => [⟨0x1F200000, 0x0B000000⟩]
  | addSubExtended => [⟨0x1FE00000, 0x0B200000⟩]
  | addSubCarry => [⟨0x1FE0FC00, 0x1A000000⟩]
  | conditionalCompareRegister => [⟨0x3FE00C10, 0x3A400000⟩]
  | conditionalCompareImmediate => [⟨0x3FE00C10, 0x3A400800⟩]
  | conditionalSelect => [⟨0x3FE00800, 0x1A800000⟩]
  | twoSource => [⟨0x7FE00000, 0x1AC00000⟩]
  | oneSource => [⟨0x7FFF0000, 0x5AC00000⟩]
  | threeSource => [⟨0x7FE00000, 0x1B000000⟩, ⟨0xFFE00000, 0x9B200000⟩, ⟨0xFFE00000, 0x9BA00000⟩]
  | multiplyHigh => [⟨0xFFE08000, 0x9B400000⟩, ⟨0xFFE08000, 0x9BC00000⟩]
  | toGeneral => toGeneralPatterns
  | fromGeneral => fromGeneralPatterns
  | simdOnly => [⟨0x0E000000, 0x0E000000⟩]

/-- Of these words, those that belong to other classes. -/
def exceptions : InstructionClass → List (Pattern 32)
  | simdOnly => toGeneralPatterns ++ fromGeneralPatterns
  | simdMultiplePost | simdSinglePost => [⟨0x001F0000, 0x001F0000⟩]
  | _ => []

def Matches (c : InstructionClass) (word : BitVec 32) : Prop :=
  (∃ p ∈ c.patterns, p.Matches word) ∧ ∀ p ∈ c.exceptions, ¬ p.Matches word

instance (c : InstructionClass) (word : BitVec 32) : Decidable (c.Matches word) := inferInstanceAs (Decidable (_ ∧ _))

/-! ## Registers -/

/-- The base register that the instruction writes back. -/
def writeback : InstructionClass → List Nat
  | storePair addressing | loadPair addressing | simdPair addressing => if addressing = .post ∨ addressing = .pre then [5] else []
  | store addressing | load addressing | simd addressing => if addressing = .post ∨ addressing = .pre then [5] else []
  | simdMultiplePost | simdMultiplePostImmediate | simdSinglePost | simdSinglePostImmediate => [5]
  | _ => []

/-- The registers of an address. -/
def base : InstructionClass → List Nat
  | store .register | load .register | prefetch .register | simd .register => [5, 16]
  | _ => [5]

/-- The fields of the registers that are read. -/
def reads : InstructionClass → List Nat
  | pcRelative | moveWide | conditionalBranch | exception | hint | sysl | mrs | branch | branchLink | exceptionReturn
  | loadLiteral | prefetchLiteral | simdLiteral | toGeneral | simdOnly => []
  | moveKeep | sys | msr | compareAndBranch | testAndBranch => [0]
  | addSubImmediate | logicalImmediate | bitfield | branchRegister | branchLinkRegister | ret | conditionalCompareImmediate
  | oneSource | fromGeneral => [5]
  | bitfieldInsert => [0, 5]
  | extract | logicalShifted | addSubShifted | addSubExtended | addSubCarry | conditionalCompareRegister | conditionalSelect
  | twoSource | multiplyHigh => [5, 16]
  | threeSource => [5, 10, 16]
  | storeExclusive | storeRelease => [0, 5]
  | storeExclusivePair => [0, 5, 10]
  | loadExclusive | loadExclusivePair | loadAcquire | simdMultiple | simdMultiplePostImmediate | simdSingle
  | simdSinglePostImmediate => [5]
  | simdMultiplePost | simdSinglePost => [5, 16]
  | storePair _ => [0, 5, 10]
  | loadPair _ | simdPair _ => [5]
  | store addressing => 0 :: base (store addressing)
  | load addressing => base (load addressing)
  | prefetch addressing => base (prefetch addressing)
  | simd addressing => base (simd addressing)

/-- The fields of the registers that are written. -/
def writes : InstructionClass → List Nat
  | pcRelative | addSubImmediate | logicalImmediate | moveWide | moveKeep | bitfield | bitfieldInsert | extract | sysl | mrs
  | loadExclusive | loadAcquire | loadLiteral | logicalShifted | addSubShifted | addSubExtended | addSubCarry | conditionalSelect
  | twoSource | oneSource | threeSource | multiplyHigh | toGeneral => [0]
  | conditionalBranch | exception | hint | sys | msr | branch | branchLink | branchRegister | branchLinkRegister | ret
  | exceptionReturn | compareAndBranch | testAndBranch | storeRelease | simdMultiple | simdSingle | prefetchLiteral | simdLiteral
  | conditionalCompareRegister | conditionalCompareImmediate | fromGeneral | simdOnly => []
  | storeExclusive | storeExclusivePair => [16]
  | loadExclusivePair => [0, 10]
  | simdMultiplePost => writeback simdMultiplePost
  | simdMultiplePostImmediate => writeback simdMultiplePostImmediate
  | simdSinglePost => writeback simdSinglePost
  | simdSinglePostImmediate => writeback simdSinglePostImmediate
  | storePair addressing => writeback (storePair addressing)
  | loadPair addressing => 0 :: 10 :: writeback (loadPair addressing)
  | simdPair addressing => writeback (simdPair addressing)
  | store addressing => writeback (store addressing)
  | load addressing => 0 :: writeback (load addressing)
  | prefetch _ => []
  | simd addressing => writeback (simd addressing)

/-- The class writes the link register. -/
def links : InstructionClass → Bool
  | branchLink | branchLinkRegister => true
  | _ => false

/-- The register fields of the class. -/
def operands (c : InstructionClass) : List Nat := c.reads ++ c.writes

def Reads (c : InstructionClass) (word : BitVec 32) (reg : Register) : Prop := ∃ pos ∈ c.reads, field word pos = reg

def Writes (c : InstructionClass) (word : BitVec 32) (reg : Register) : Prop :=
  (∃ pos ∈ c.writes, field word pos = reg) ∨ (c.links = true ∧ reg = linkRegister)

end InstructionClass

/-- The positions of register fields. -/
def positions : List Nat := [0, 5, 10, 16]

theorem InstructionClass.mem_positions (c : InstructionClass) : ∀ pos ∈ c.operands, pos ∈ positions := by
  cases c with
  | storePair addressing => cases addressing <;> decide
  | loadPair addressing => cases addressing <;> decide
  | simdPair addressing => cases addressing <;> decide
  | store addressing => cases addressing <;> decide
  | load addressing => cases addressing <;> decide
  | prefetch addressing => cases addressing <;> decide
  | simd addressing => cases addressing <;> decide
  | _ => decide

/-! ## A word belongs to one class -/

namespace InstructionClass

def all : List InstructionClass :=
  [pcRelative, addSubImmediate, logicalImmediate, moveWide, moveKeep, bitfield, bitfieldInsert, extract, conditionalBranch, exception,
    hint, sys, sysl, msr, mrs, branch, branchLink, branchRegister, branchLinkRegister, ret, exceptionReturn, compareAndBranch,
    testAndBranch, storeExclusive, storeExclusivePair, loadExclusive, loadExclusivePair, storeRelease, loadAcquire, simdMultiple,
    simdMultiplePost, simdMultiplePostImmediate, simdSingle, simdSinglePost, simdSinglePostImmediate, loadLiteral, prefetchLiteral,
    simdLiteral, logicalShifted, addSubShifted, addSubExtended, addSubCarry, conditionalCompareRegister, conditionalCompareImmediate,
    conditionalSelect, twoSource, oneSource, threeSource, multiplyHigh, toGeneral, fromGeneral, simdOnly] ++
  [PairAddressing.noAllocate, .post, .offset, .pre].flatMap (fun a => [storePair a, loadPair a, simdPair a]) ++
  [Addressing.unscaled, .post, .unprivileged, .pre, .register, .unsigned].flatMap fun a => [store a, load a, prefetch a, simd a]

theorem mem_all (c : InstructionClass) : c ∈ all := by
  cases c with
  | storePair addressing => cases addressing <;> decide
  | loadPair addressing => cases addressing <;> decide
  | simdPair addressing => cases addressing <;> decide
  | store addressing => cases addressing <;> decide
  | load addressing => cases addressing <;> decide
  | prefetch addressing => cases addressing <;> decide
  | simd addressing => cases addressing <;> decide
  | _ => decide

/-- No word that has the bits of both belongs to both classes. -/
def Apart (c d : InstructionClass) (p q : Pattern 32) : Prop :=
  p.known q = some false ∨ (∃ e ∈ c.exceptions, q.known e = some true) ∨ ∃ e ∈ d.exceptions, p.known e = some true

instance (c d : InstructionClass) (p q : Pattern 32) : Decidable (Apart c d p q) := inferInstanceAs (Decidable (_ ∨ _))

theorem pairwise_apart : all.Pairwise fun c d => ∀ p ∈ c.patterns, ∀ q ∈ d.patterns, Apart c d p q := by decide +kernel

theorem Apart.not_matches {c d : InstructionClass} {p q : Pattern 32} (h : Apart c d p q) {word : BitVec 32} (hp : p.Matches word)
    (hq : q.Matches word) (hc : ∀ e ∈ c.exceptions, ¬ e.Matches word) (hd : ∀ e ∈ d.exceptions, ¬ e.Matches word) : False := by
  rcases h with h | ⟨e, he, h⟩ | ⟨e, he, h⟩
  · exact absurd ((Pattern.known_sound hp h).1 hq) Bool.false_ne_true
  · exact hc e he ((Pattern.known_sound hq h).2 rfl)
  · exact hd e he ((Pattern.known_sound hp h).2 rfl)

theorem eq_of_matches {c d : InstructionClass} {word : BitVec 32} (hc : c.Matches word) (hd : d.Matches word) : c = d := by
  have hsymm : Std.Symm fun c d : InstructionClass => c.Matches word → d.Matches word → c = d := ⟨fun c d h hd hc => (h hc hd).symm⟩
  have hpairs : all.Pairwise fun c d => c.Matches word → d.Matches word → c = d := by
    refine pairwise_apart.imp fun {c d} h hc hd => ?_
    obtain ⟨⟨p, hp, hpm⟩, hc⟩ := hc
    obtain ⟨⟨q, hq, hqm⟩, hd⟩ := hd
    exact ((h p hp q hq).not_matches hpm hqm hc hd).elim
  exact hpairs.forall_of_forall (fun _ _ _ _ => rfl) (mem_all c) (mem_all d) hc hd

end InstructionClass

/-- The instruction has the register as an operand. -/
def mentions (word : BitVec 32) (reg : Register) : Bool :=
  InstructionClass.all.any fun c => c.Matches word && c.operands.any fun pos => field word pos = reg

theorem mentions_iff {c : InstructionClass} {word : BitVec 32} (h : c.Matches word) {reg : Register} :
    mentions word reg = true ↔ ∃ pos ∈ c.operands, field word pos = reg := by
  simp only [mentions, List.any_eq_true, Bool.and_eq_true, decide_eq_true_eq]
  constructor
  · rintro ⟨d, -, hd, hpos⟩
    rw [InstructionClass.eq_of_matches h hd]
    exact hpos
  · intro hpos
    exact ⟨c, c.mem_all, h, hpos⟩

end Egalito.A64
