import Mathlib.Data.List.Sort
import Mathlib.Tactic
/-!
# Address ranges

`Range` of `util/range.h`: a start address and a size, both 64 bits wide. The
end is their sum, which wraps. A range is `Proper` when it is not empty and its
end does not wrap; for proper ranges the comparisons mean what they say about
the addresses inside.
-/

namespace Egalito

/-- `address_t`, and `size_t`, on the 64-bit targets. -/
abbrev Address := BitVec 64

structure Range where
  start : Address
  size : Address
deriving DecidableEq, Repr

namespace Range

def getEnd (r : Range) : Address := r.start + r.size

/-- `contains(address_t)` -/
def contains (r : Range) (point : Address) : Bool := point ≥ r.start && point < r.getEnd

/-- `contains(const Range &)` -/
def containsRange (r other : Range) : Bool := other.start ≥ r.start && other.getEnd ≤ r.getEnd

/-- `overlaps(const Range &)` -/
def overlaps (r other : Range) : Bool := !(other.start ≥ r.getEnd || other.getEnd ≤ r.start)

/-- `range < point`: the range ends at the point or before it. -/
def endsBefore (r : Range) (point : Address) : Bool := r.start + r.size ≤ point

/-- `point < range` -/
def startsAfter (point : Address) (r : Range) : Bool := point < r.start

/-- `range < range`: by start, then by end. -/
def lt (r other : Range) : Bool :=
  r.start < other.start || (r.start == other.start && r.getEnd < other.getEnd)

/-- The order of `overlapEnd`: latest end first, then latest start. -/
def endGt (a b : Range) : Bool :=
  b.getEnd < a.getEnd || (b.getEnd == a.getEnd && b.start < a.start)

/-- `fromEndpoints` asserts `start <= end`. -/
def fromEndpoints (start end_ : Address) : Option Range :=
  if end_ ≥ start then some ⟨start, end_ - start⟩ else none

/-- Not empty, and the end does not wrap. -/
def Proper (r : Range) : Prop := 0 < r.size.toNat ∧ r.start.toNat + r.size.toNat < 2 ^ 64

instance (r : Range) : Decidable r.Proper := inferInstanceAs (Decidable (_ ∧ _))

/-! ## The comparisons, over the natural numbers -/

section Nat
variable {r s : Range} {p : Address}

theorem proper_iff : r.Proper ↔ r.start.toNat < r.getEnd.toNat := by
  have h1 := r.start.isLt
  have h2 := r.size.isLt
  simp only [Proper, getEnd, BitVec.toNat_add]
  omega

@[simp] theorem contains_iff :
    r.contains p = true ↔ r.start.toNat ≤ p.toNat ∧ p.toNat < r.getEnd.toNat := by
  simp [contains, BitVec.le_def, BitVec.lt_def]

@[simp] theorem containsRange_iff :
    r.containsRange s = true ↔ r.start.toNat ≤ s.start.toNat ∧ s.getEnd.toNat ≤ r.getEnd.toNat := by
  simp [containsRange, BitVec.le_def]

@[simp] theorem overlaps_iff :
    r.overlaps s = true ↔ s.start.toNat < r.getEnd.toNat ∧ r.start.toNat < s.getEnd.toNat := by
  simp [overlaps, BitVec.le_def]

@[simp] theorem endsBefore_iff : r.endsBefore p = true ↔ r.getEnd.toNat ≤ p.toNat := by
  simp [endsBefore, getEnd, BitVec.le_def]

@[simp] theorem startsAfter_iff : startsAfter p r = true ↔ p.toNat < r.start.toNat := by
  simp [startsAfter, BitVec.lt_def]

@[simp] theorem lt_eq_false : r.lt s = false ↔ s.start.toNat < r.start.toNat ∨
    (s.start.toNat = r.start.toNat ∧ s.getEnd.toNat ≤ r.getEnd.toNat) := by
  simp only [lt, Bool.or_eq_false_iff, Bool.and_eq_false_imp, decide_eq_false_iff_not, beq_iff_eq,
    BitVec.lt_def, ← BitVec.toNat_inj]
  omega

@[simp] theorem endGt_eq_false : r.endGt s = false ↔ r.getEnd.toNat < s.getEnd.toNat ∨
    (s.getEnd.toNat = r.getEnd.toNat ∧ r.start.toNat ≤ s.start.toNat) := by
  simp only [endGt, Bool.or_eq_false_iff, Bool.and_eq_false_imp, decide_eq_false_iff_not, beq_iff_eq,
    BitVec.lt_def, ← BitVec.toNat_inj]
  omega

theorem fromEndpoints_spec {a b : Address} (h : a.toNat ≤ b.toNat) :
    ∃ r, fromEndpoints a b = some r ∧ r.start = a ∧ r.getEnd = b := by
  refine ⟨⟨a, b - a⟩, ?_, rfl, ?_⟩
  · simp [fromEndpoints, BitVec.le_def, h]
  · simp only [getEnd]; bv_omega

theorem fromEndpoints_some {a b : Address} (h : fromEndpoints a b = some r) :
    a.toNat ≤ b.toNat ∧ r.start = a ∧ r.getEnd = b := by
  by_cases hle : a.toNat ≤ b.toNat
  · obtain ⟨s, hs, hstart, hend⟩ := fromEndpoints_spec hle
    obtain rfl := Option.some.inj (h.symm.trans hs)
    exact ⟨hle, hstart, hend⟩
  · rw [fromEndpoints, if_neg (by rw [ge_iff_le, BitVec.le_def]; exact hle)] at h
    cases h

end Nat

/-! ## Ranges as sets of addresses -/

/-- The addresses of a range. -/
def addresses (r : Range) : Set Address := {p | r.contains p = true}

theorem containsRange_iff_subset {r s : Range} (hs : s.Proper) :
    r.containsRange s = true ↔ s.addresses ⊆ r.addresses := by
  rw [proper_iff] at hs
  have hlt := s.getEnd.isLt
  constructor
  · intro h p hp
    simp only [addresses, Set.mem_ofPred_eq, contains_iff, containsRange_iff] at *
    omega
  · intro h
    have h1 := @h s.start (by simp [addresses, hs])
    have h2 := @h (s.getEnd - 1) (by simp [addresses]; bv_omega)
    simp only [addresses, Set.mem_ofPred_eq, contains_iff, containsRange_iff] at *
    bv_omega

theorem overlaps_iff_inter {r s : Range} (hr : r.Proper) (hs : s.Proper) :
    r.overlaps s = true ↔ (r.addresses ∩ s.addresses).Nonempty := by
  rw [proper_iff] at hr hs
  constructor
  · intro h
    rw [overlaps_iff] at h
    by_cases hle : r.start.toNat ≤ s.start.toNat
    · exact ⟨s.start, by simp [addresses]; omega, by simp [addresses]; omega⟩
    · exact ⟨r.start, by simp [addresses]; omega, by simp [addresses]; omega⟩
  · rintro ⟨p, hp, hq⟩
    simp only [addresses, Set.mem_ofPred_eq, contains_iff, overlaps_iff] at *
    omega

end Range

end Egalito
