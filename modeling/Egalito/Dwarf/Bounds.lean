import Egalito.Dwarf.Walk
/-!
# When the parser stays in the section and ends

For any bytes: the rounds that the parser reaches, what each of them needs, and
that this is all it takes.
-/

open Egalito.Lib

namespace Egalito.Dwarf

section Bounds

variable (f : EhFrame) (fuel : Nat)

/-- The rounds of the loop: the offset that one starts at, and what was found before it. -/
inductive Reached : DwarfUnwindInfo → Nat → Prop
  | start : Reached .empty 0
  | step {info info' : DwarfUnwindInfo} {p : Nat} {length distance : BitVec 64} {cursor : DwarfCursor} :
    Reached info p → p < f.bytes.length →
    (nextLength f).run (.at (f.place p)) = some ((length, distance), cursor) → length ≠ 0 →
    parseEntry f fuel info cursor (f.place p + distance) length = some info' →
    Reached info' (p + distance.toNat)

/-- What a round needs: its length lies in the section, the end of the entry is a later
address, and the entry itself is read inside of the section. -/
structure RoundOk (info : DwarfUnwindInfo) (p : Nat) : Prop where
  length : p + 4 ≤ f.bytes.length
  extended : f.read 4 (f.place p) = some 0xffffffff → p + 12 ≤ f.bytes.length
  later : ∀ length distance cursor, (nextLength f).run (.at (f.place p)) = some ((length, distance), cursor) →
    length ≠ 0 → 0 < distance.toNat ∧ f.readAddress.toNat + p + distance.toNat < 2 ^ 64
  entry : ∀ length distance cursor, (nextLength f).run (.at (f.place p)) = some ((length, distance), cursor) →
    length ≠ 0 → (parseEntry f fuel info cursor (f.place p + distance) length).isSome

/-- The parser ends without leaving the section, and every round starts behind the one before. -/
def EndsInside (info : DwarfUnwindInfo) (start : Address) : Prop :=
  ∃ rounds info' places, parse f fuel rounds info start = some (info', places) ∧ places.Pairwise (· < ·)

end Bounds

variable {f : EhFrame} {fuel p : Nat} {info info' : DwarfUnwindInfo}

/-! ## The length of an entry -/

theorem nextLength_place (hp : p < 2 ^ 64) (h4 : p + 4 ≤ f.bytes.length)
    (hx : f.read 4 (f.place p) = some 0xffffffff → p + 12 ≤ f.bytes.length) :
    ∃ length distance cursor, (nextLength f).run (.at (f.place p)) = some ((length, distance), cursor) := by
  have hmapped := f.mapped
  obtain ⟨v, hv⟩ : ∃ v, f.read 4 (f.place p) = some v := ⟨_, by rw [EhFrame.read_place hp, if_pos h4]⟩
  simp only [nextLength, StateT.run_bind, next_run, DwarfCursor.at, hv, Option.map_some, Option.bind_eq_bind,
    Option.bind_some, EhFrame.place_add]
  by_cases he : v = 0xffffffff
  · rw [hv, he] at hx
    obtain ⟨w, hw⟩ : ∃ w, f.read 8 (f.place (p + 4)) = some w :=
      ⟨_, by rw [EhFrame.read_place (by omega), if_pos (by have := hx rfl; omega)]⟩
    rw [if_pos he]
    simp only [StateT.run_bind, next_run, hw, Option.map_some, Option.bind_eq_bind, Option.bind_some]
    exact ⟨_, _, _, rfl⟩
  · rw [if_neg he]
    exact ⟨_, _, _, rfl⟩

theorem inside_of_nextLength {length distance : BitVec 64} {cursor : DwarfCursor} (hp : p < f.bytes.length)
    (h : (nextLength f).run (.at (f.place p)) = some ((length, distance), cursor)) :
    p + 4 ≤ f.bytes.length ∧ (f.read 4 (f.place p) = some 0xffffffff → p + 12 ≤ f.bytes.length) := by
  have hmapped := f.mapped
  simp only [nextLength, StateT.run_bind, next_run, DwarfCursor.at, Option.bind_eq_bind, Option.bind_eq_some_iff,
    Option.map_eq_some_iff, EhFrame.place_add] at h
  obtain ⟨⟨v, c⟩, ⟨v', hv, heq⟩, h⟩ := h
  cases heq
  have h4 : p + 4 ≤ f.bytes.length := by
    by_contra hlt
    rw [EhFrame.read_place (by omega), if_neg hlt] at hv
    cases hv
  refine ⟨h4, fun hx => ?_⟩
  rw [hv, Option.some_inj] at hx
  rw [if_pos hx] at h
  simp only [StateT.run_bind, next_run, Option.bind_eq_bind, Option.bind_eq_some_iff, Option.map_eq_some_iff] at h
  obtain ⟨_, ⟨w, hw, -⟩, -⟩ := h
  by_contra hlt
  rw [EhFrame.read_place (by omega), if_neg (by omega)] at hw
  cases hw

/-! ## One round -/

/-- A round that is not the last one, with everything it reads. -/
theorem parse_round {rounds : Nat} {length distance : BitVec 64} {cursor : DwarfCursor}
    (hp : p < f.bytes.length) (h : (nextLength f).run (.at (f.place p)) = some ((length, distance), cursor))
    (hz : length ≠ 0) (hentry : parseEntry f fuel info cursor (f.place p + distance) length = some info') :
    parse f fuel (rounds + 1) info (f.place p) =
      (parse f fuel rounds info' (f.place p + distance)).map fun r => (r.1, f.place p :: r.2) := by
  have hmapped := f.mapped
  rw [parse, if_pos ((EhFrame.place_lt_iff (by omega)).2 hp), h]
  simp only [Option.bind_eq_bind, Option.bind_some, if_neg hz, hentry]
  cases parse f fuel rounds info' (f.place p + distance) <;> rfl

theorem place_add_distance (distance : BitVec 64) : f.place p + distance = f.place (p + distance.toNat) := by
  rw [← EhFrame.place_add, BitVec.ofNat_toNat, BitVec.setWidth_eq]

/-! ## All rounds -/

/-- From the conditions on the rounds: the induction is on what is left of the section. -/
theorem endsInside_of_roundOk (hok : ∀ info p, Reached f fuel info p → p < f.bytes.length → RoundOk f fuel info p)
    (hr : Reached f fuel info p) (hp : f.readAddress.toNat + p < 2 ^ 64) :
    ∃ rounds info' places, parse f fuel rounds info (f.place p) = some (info', places) ∧
      places.Pairwise (· < ·) ∧ ∀ a ∈ places, f.place p ≤ a := by
  induction hn : f.bytes.length - p using Nat.strong_induction_on generalizing info p with
  | _ n ih =>
    by_cases hlt : p < f.bytes.length
    · have hround := hok info p hr hlt
      obtain ⟨length, distance, cursor, hnext⟩ := nextLength_place (by omega) hround.length hround.extended
      by_cases hz : length = 0
      · refine ⟨1, info, [f.place p], ?_, List.pairwise_singleton _ _, by simp⟩
        rw [parse, if_pos ((EhFrame.place_lt_iff hp).2 hlt), hnext]
        simp [hz]
      · obtain ⟨hpos, hwrap⟩ := hround.later _ _ _ hnext hz
        obtain ⟨info', hentry⟩ := Option.isSome_iff_exists.1 (hround.entry _ _ _ hnext hz)
        obtain ⟨rounds, last, places, hparse, hinc, hle⟩ :=
          ih (f.bytes.length - (p + distance.toNat)) (by omega) (hr.step hlt hnext hz hentry) (by omega) rfl
        have hstep : f.place p < f.place (p + distance.toNat) := by
          rw [BitVec.lt_def, EhFrame.toNat_place hp, EhFrame.toNat_place (by omega)]
          omega
        refine ⟨rounds + 1, last, f.place p :: places, ?_, List.pairwise_cons.2 ⟨?_, hinc⟩, ?_⟩
        · rw [parse_round hlt hnext hz hentry, place_add_distance, hparse]
          rfl
        · intro a ha
          exact Nat.lt_of_lt_of_le hstep (hle a ha)
        · intro a ha
          rcases List.mem_cons.1 ha with rfl | ha
          · exact BitVec.le_refl _
          · exact BitVec.le_of_lt (Nat.lt_of_lt_of_le hstep (hle a ha))
    · refine ⟨1, info, [], ?_, List.Pairwise.nil, by simp⟩
      rw [parse, if_neg (fun h => hlt ((EhFrame.place_lt_iff hp).1 h))]
      rfl

theorem pairwise_head {rounds : Nat} {start first : Address} {places : List Address} (hlt : start < f.endAddress)
    (h : parse f fuel rounds info start = some (info', places)) (hinc : (first :: places).Pairwise (· < ·)) :
    first < start := by
  obtain ⟨_, _, _, tail, _, rfl, _⟩ := parse_inv hlt h
  exact (List.pairwise_cons.1 hinc).1 start List.mem_cons_self

/-- The end of an entry is later than its start, since the next round is. -/
theorem later_of_parse {rounds : Nat} {distance : BitVec 64} {places : List Address} (hp : p < f.bytes.length)
    (h : parse f fuel rounds info (f.place p + distance) = some (info', places))
    (hinc : (f.place p :: places).Pairwise (· < ·)) :
    0 < distance.toNat ∧ f.readAddress.toNat + p + distance.toNat < 2 ^ 64 := by
  have hmapped := f.mapped
  have hplace := EhFrame.toNat_place (f := f) (p := p) (by omega)
  have hsum : (f.place p + distance).toNat = (f.readAddress.toNat + p + distance.toNat) % 2 ^ 64 := by
    rw [BitVec.toNat_add, hplace]
  by_contra hnot
  -- otherwise the next round starts here or before, still below the end of the section
  have hle : (f.place p + distance).toNat ≤ (f.place p).toNat := by
    rw [hsum, hplace]
    have := distance.isLt
    omega
  have hlt : f.place p + distance < f.endAddress :=
    Nat.lt_of_le_of_lt hle ((EhFrame.place_lt_iff (by omega)).2 hp)
  exact absurd (pairwise_head hlt h hinc) (Nat.not_lt.2 hle)

/-- One round of a run that ends well: what it needed, and that the rest ends well. -/
theorem round_of_endsInside (hp : p < f.bytes.length) (h : EndsInside f fuel info (f.place p)) :
    RoundOk f fuel info p ∧ ∀ length distance cursor,
      (nextLength f).run (.at (f.place p)) = some ((length, distance), cursor) → length ≠ 0 →
      ∀ info', parseEntry f fuel info cursor (f.place p + distance) length = some info' →
        EndsInside f fuel info' (f.place (p + distance.toNat)) := by
  have hmapped := f.mapped
  obtain ⟨rounds, last, places, hparse, hinc⟩ := h
  obtain ⟨length, distance, cursor, tail, hnext, rfl, hmore⟩ :=
    parse_inv ((EhFrame.place_lt_iff (by omega)).2 hp) hparse
  obtain ⟨h4, h12⟩ := inside_of_nextLength hp hnext
  refine ⟨⟨h4, h12, ?_, ?_⟩, ?_⟩
  · intro _ _ _ hnext' hz
    cases hnext.symm.trans hnext'
    obtain ⟨_, _, _, htail⟩ := hmore hz
    exact later_of_parse hp htail hinc
  · intro _ _ _ hnext' hz
    cases hnext.symm.trans hnext'
    obtain ⟨_, _, hentry, _⟩ := hmore hz
    exact Option.isSome_iff_exists.2 ⟨_, hentry⟩
  · intro _ _ _ hnext' hz info' hentry'
    cases hnext.symm.trans hnext'
    obtain ⟨rounds', _, hentry, htail⟩ := hmore hz
    cases hentry.symm.trans hentry'
    rw [place_add_distance] at htail
    exact ⟨rounds', last, tail, htail, (List.pairwise_cons.1 hinc).2⟩

/-- Every round of a run that ends well is the start of one. -/
theorem endsInside_of_reached (h : EndsInside f fuel .empty f.readAddress) (hr : Reached f fuel info p) :
    EndsInside f fuel info (f.place p) := by
  induction hr with
  | start => rwa [EhFrame.place_zero]
  | step _ hp hnext hz hentry ih => exact (round_of_endsInside hp ih).2 _ _ _ hnext hz _ hentry

/-- One record with the extended length `2 ^ 64 - 8`, whose end is computed as its start. -/
def stuckFrame : EhFrame where
  readAddress := 0x7f0000001000
  virtualAddress := 0x2000
  bytes := leBytes 4 0xffffffff ++ leBytes 8 (2 ^ 64 - 8) ++ leBytes 4 1
  mapped := by decide

end Egalito.Dwarf
