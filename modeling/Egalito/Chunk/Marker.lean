import Egalito.Chunk.Resolver
/-!
# Markers at the edges of a section

`SectionStartMarker` and `SectionEndMarker` of `chunk/marker.cpp`. Both keep the
distance from an edge of their section in `bias`, and both compute a new `bias` from
an address that has the old one in it.
-/

open Egalito.Resolver

namespace Egalito.Marker

/-! ## The markers -/

/-- An address at a distance from the edge of a section. -/
def biased (edge : UInt64) (bias : Int64) : UInt64 := edge + bias.toUInt64

/-- The distance that `setAddress` stores. -/
def rebias (edge : UInt64) (bias : Int64) (address : UInt64) : Int64 :=
  (address - biased edge bias).toInt64

structure SectionStartMarker where
  dataSection : DataSection
  bias : Int64

def SectionStartMarker.make (dataSection : DataSection) : SectionStartMarker := ⟨dataSection, 0⟩

def SectionStartMarker.getAddress (marker : SectionStartMarker) : UInt64 :=
  biased marker.dataSection.address marker.bias

def SectionStartMarker.setAddress (marker : SectionStartMarker) (address : UInt64) : SectionStartMarker :=
  { marker with bias := rebias marker.dataSection.address marker.bias address }

structure SectionEndMarker where
  dataSection : DataSection
  bias : Int64

def SectionEndMarker.make (dataSection : DataSection) : SectionEndMarker := ⟨dataSection, 0⟩

def SectionEndMarker.getAddress (marker : SectionEndMarker) : UInt64 :=
  biased (marker.dataSection.address + marker.dataSection.size) marker.bias

def SectionEndMarker.setAddress (marker : SectionEndMarker) (address : UInt64) : SectionEndMarker :=
  { marker with bias := rebias (marker.dataSection.address + marker.dataSection.size) marker.bias address }

/-! ## What a sequence of calls leaves -/

/-- The addresses added with alternating signs, the last of them with a plus. -/
def alternating (addresses : List UInt64) : UInt64 :=
  addresses.foldl (fun sum address => address - sum) 0

@[simp] theorem alternating_concat (addresses : List UInt64) (address : UInt64) :
    alternating (addresses ++ [address]) = address - alternating addresses := by
  simp [alternating]

/-- The edge as often as the calls have counted it in. -/
def counted (edge : UInt64) (calls : Nat) : UInt64 := if calls % 2 = 1 then edge else 0

theorem counted_succ (edge : UInt64) (calls : Nat) : counted edge (calls + 1) = edge - counted edge calls := by
  unfold counted
  rcases Nat.mod_two_eq_zero_or_one calls with h | h
  · rw [if_pos (by omega), if_neg (by omega), UInt64.sub_zero]
  · rw [if_neg (by omega), if_pos h, UInt64.sub_self]

@[simp] theorem toUInt64_rebias (edge : UInt64) (bias : Int64) (address : UInt64) :
    (rebias edge bias address).toUInt64 = address - biased edge bias := rfl

/-- The bias after a sequence of calls: what the addresses add up to, less the edge. -/
theorem bias_run (edge : UInt64) (addresses : List UInt64) :
    (addresses.foldl (rebias edge) 0).toUInt64 = alternating addresses - counted edge addresses.length := by
  induction addresses using List.reverseRecOn with
  | nil => exact (UInt64.sub_zero 0).symm
  | append_singleton addresses address ih =>
    rw [List.foldl_append, List.foldl_cons, List.foldl_nil, toUInt64_rebias, biased, ih, alternating_concat,
      List.length_append, List.length_singleton, counted_succ]
    grind

theorem biased_rebias (edge : UInt64) (bias : Int64) (address : UInt64) :
    biased edge (rebias edge bias address) = address - bias.toUInt64 := by
  rw [biased, toUInt64_rebias, biased]
  grind

/-- One more call is answered with its address if the bias before it was zero. -/
theorem biased_rebias_eq_iff (edge : UInt64) (bias : Int64) (address : UInt64) :
    biased edge (rebias edge bias address) = address ↔ bias.toUInt64 = 0 := by
  rw [biased_rebias]
  constructor
  · intro h
    grind
  · intro h
    rw [h, UInt64.sub_zero]

/-- The addresses set before the last call cancel out around the edge. -/
def Cancels (edge : UInt64) (before : List UInt64) : Prop :=
  alternating before = counted edge before.length

theorem bias_run_eq_zero_iff (edge : UInt64) (addresses : List UInt64) :
    (addresses.foldl (rebias edge) 0).toUInt64 = 0 ↔ Cancels edge addresses := by
  rw [bias_run, Cancels]
  constructor
  · intro h
    grind
  · intro h
    rw [h, UInt64.sub_self]

/-! ## Both markers -/

theorem SectionStartMarker.run (s : DataSection) (bias : Int64) (addresses : List UInt64) :
    addresses.foldl SectionStartMarker.setAddress ⟨s, bias⟩ = ⟨s, addresses.foldl (rebias s.address) bias⟩ := by
  induction addresses generalizing bias with
  | nil => rfl
  | cons address addresses ih => exact ih _

theorem SectionEndMarker.run (s : DataSection) (bias : Int64) (addresses : List UInt64) :
    addresses.foldl SectionEndMarker.setAddress ⟨s, bias⟩ =
      ⟨s, addresses.foldl (rebias (s.address + s.size)) bias⟩ := by
  induction addresses generalizing bias with
  | nil => rfl
  | cons address addresses ih => exact ih _

/-- Where a marker answers with the address last set, on any section: where the
addresses set before that cancel out around its edge. -/
theorem getAddress_last_iff (s : DataSection) (before : List UInt64) (address : UInt64) :
    (((before ++ [address]).foldl SectionStartMarker.setAddress (.make s)).getAddress = address ↔
      Cancels s.address before) ∧
    (((before ++ [address]).foldl SectionEndMarker.setAddress (.make s)).getAddress = address ↔
      Cancels (s.address + s.size) before) := by
  constructor
  · rw [SectionStartMarker.make, SectionStartMarker.run, SectionStartMarker.getAddress, List.foldl_append,
      List.foldl_cons, List.foldl_nil, biased_rebias_eq_iff, bias_run_eq_zero_iff]
  · rw [SectionEndMarker.make, SectionEndMarker.run, SectionEndMarker.getAddress, List.foldl_append,
      List.foldl_cons, List.foldl_nil, biased_rebias_eq_iff, bias_run_eq_zero_iff]

/-- A marker at the start of a section is set twice, and answers with neither address. -/
theorem set_twice :
    ¬ ∀ (s : DataSection) (before : List UInt64) (address : UInt64),
      ((before ++ [address]).foldl SectionStartMarker.setAddress (.make s)).getAddress = address := by
  intro h
  exact absurd (h ⟨0x1000, 0x100, .data⟩ [0x2000] 0x3000) (by decide)

end Egalito.Marker
