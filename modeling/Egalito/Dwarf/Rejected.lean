import Egalito.Dwarf.Operands
/-!
# Entries that the parser rejects

A CIE of an unknown version, or with an augmentation string of an unknown form, is no
entry of the unwind information; an FDE without a CIE is none either. When the
loop goes on behind them as if they were not there.
-/

open Egalito.Lib Relation

namespace Egalito.Dwarf

section Loop

variable (f : EhFrame) (fuel : Nat)

/-- One round of the loop: the entry at the start is taken in, and the next round starts
behind it. -/
def Round (r r' : DwarfUnwindInfo × Address) : Prop :=
  r.2 < f.endAddress ∧ ∃ length distance cursor,
    (nextLength f).run (.at r.2) = some ((length, distance), cursor) ∧ length ≠ 0 ∧
    parseEntry f fuel r.1 cursor (r.2 + distance) length = some r'.1 ∧ r'.2 = r.2 + distance

/-- The rounds of `parse`. -/
def Arrives (info : DwarfUnwindInfo) (start : Address) : Prop :=
  ReflTransGen (Round f fuel) (.empty, f.readAddress) (info, start)

/-- The entry that a round starts at: its length and end, its ID, and where its fields begin. -/
structure EntryAt (start : Address) (length distance entryID : BitVec 64) (startOfEntry : Address)
    (fields : DwarfCursor) : Prop where
  inside : start < f.endAddress
  length_ne : length ≠ 0
  header : ∃ cursor, (nextLength f).run (.at start) = some ((length, distance), cursor) ∧
    cursor.cursor = startOfEntry ∧ (next f 4).run cursor = some (entryID, fields)

/-- An entry is passed over: what was collected stays, and the next round starts behind it. -/
def PassedOver (info : DwarfUnwindInfo) (start distance : BitVec 64) : Prop :=
  Round f fuel (info, start) (info, start + distance)

/-- A rejected CIE, and an FDE whose CIE is not among those collected, are passed over. -/
structure SkipsRejected : Prop where
  cie : ∀ info start length distance startOfEntry fields, Arrives f fuel info start →
    EntryAt f start length distance 0 startOfEntry fields →
    parseCIE f fuel fields (start + distance) length info.cieList.length = some none →
    PassedOver f fuel info start distance
  fde : ∀ info start length distance entryID startOfEntry fields, Arrives f fuel info start →
    EntryAt f start length distance entryID startOfEntry fields → entryID ≠ 0 →
    (∀ cie ∈ info.cieList, cie.startAddress ≠ startOfEntry - entryID) →
    PassedOver f fuel info start distance

/-! ## What is rejected -/

/-- The version at the cursor is not known. -/
def UnknownVersion (fields : DwarfCursor) : Prop :=
  ∃ version, f.read 1 fields.cursor = some version ∧ version ≠ 1 ∧ version ≠ 3

/-- The string behind a known version starts with another letter than `z`; the three numbers
that follow it are read first. -/
def UnknownAugmentation (fields : DwarfCursor) : Prop :=
  ∃ version, f.read 1 fields.cursor = some version ∧ (version = 1 ∨ version = 3) ∧
    ∃ first letters behind, first ≠ 0x7a ∧
      (nextString f).run { fields with cursor := fields.cursor + 1 } = some (first :: letters, behind) ∧
      ((do
        let _ ← nextUleb128 f
        let _ ← nextSleb128 f
        nextUleb128 f : CursorM (BitVec 64)).run behind).isSome

end Loop

variable {f : EhFrame} {fuel : Nat} {info info' : DwarfUnwindInfo} {start startOfEntry : Address}
  {length distance entryID : BitVec 64} {fields : DwarfCursor}

theorem parseAugmentation_rejects_iff {string : List UInt8} {c : DwarfCursor} :
    (∃ c', (parseAugmentation f string).run c = some (none, c')) ↔
      ∃ first letters, string = first :: letters ∧ first ≠ 0x7a := by
  cases string with
  | nil =>
    refine iff_of_false ?_ (by simp)
    rintro ⟨c', h⟩
    cases h
  | cons first letters =>
    simp only [parseAugmentation]
    by_cases hz : first = 0x7a
    · rw [if_pos hz]
      refine iff_of_false ?_ (by simp [hz])
      rintro ⟨c', h⟩
      obtain ⟨_, _, -, h⟩ := run_bind_eq_some.1 h
      obtain ⟨_, _, -, h⟩ := run_bind_eq_some.1 h
      cases h
    · rw [if_neg hz]
      exact iff_of_true ⟨c, rfl⟩ ⟨first, letters, rfl, hz⟩

/-- The fields of a CIE are an error exactly in the two forms. -/
theorem parseCIEFields_rejects_iff :
    (∃ c', (parseCIEFields f).run fields = some (none, c')) ↔ UnknownVersion f fields ∨ UnknownAugmentation f fields := by
  cases hread : f.read 1 fields.cursor with
  | none =>
    refine iff_of_false ?_ ?_
    · rintro ⟨c', h⟩
      obtain ⟨_, _, hv, -⟩ := run_bind_eq_some.1 h
      rw [next_run, hread] at hv
      cases hv
    · rintro (⟨_, h, -⟩ | ⟨_, h, -⟩) <;> exact absurd (hread.symm.trans h) (by simp)
  | some version =>
    have hnext : (next f 1).run fields = some (version, { fields with cursor := fields.cursor + 1 }) := by
      rw [next_run, hread]
      rfl
    by_cases hv : version ≠ 1 ∧ version ≠ 3
    · refine iff_of_true ⟨{ fields with cursor := fields.cursor + 1 }, run_bind_eq_some.2 ⟨_, _, hnext, ?_⟩⟩
        (.inl ⟨version, hread, hv⟩)
      rw [if_pos hv]
      rfl
    · have hknown : version = 1 ∨ version = 3 := by
        by_contra h
        exact hv (not_or.1 h)
      constructor
      · rintro ⟨c', h⟩
        obtain ⟨_, _, hn, h⟩ := run_bind_eq_some.1 h
        cases hnext.symm.trans hn
        rw [if_neg hv] at h
        obtain ⟨string, c1, hs, h⟩ := run_bind_eq_some.1 h
        obtain ⟨code, c2, hcode, h⟩ := run_bind_eq_some.1 h
        obtain ⟨data, c3, hdata, h⟩ := run_bind_eq_some.1 h
        obtain ⟨reg, c4, hreg, h⟩ := run_bind_eq_some.1 h
        obtain ⟨augmentation, c5, haug, h⟩ := run_bind_eq_some.1 h
        cases augmentation with
        | some augmentation => cases h
        | none =>
          obtain ⟨first, letters, rfl, hz⟩ := parseAugmentation_rejects_iff.1 ⟨c5, haug⟩
          have hnumbers : ((do
              let _ ← nextUleb128 f
              let _ ← nextSleb128 f
              nextUleb128 f : CursorM (BitVec 64)).run c1) = some (reg, c4) :=
            run_bind_eq_some.2 ⟨_, _, hcode, run_bind_eq_some.2 ⟨_, _, hdata, hreg⟩⟩
          exact .inr ⟨version, hread, hknown, first, letters, c1, hz, hs, by rw [hnumbers]; rfl⟩
      · rintro (⟨v, h, hv'⟩ | ⟨v, h, -, first, letters, c1, hz, hs, hnumbers⟩)
        · cases hread.symm.trans h
          exact absurd hv' hv
        · obtain ⟨⟨reg, c4⟩, hnumbers⟩ := Option.isSome_iff_exists.1 hnumbers
          obtain ⟨code, c2, hcode, hnumbers⟩ := run_bind_eq_some.1 hnumbers
          obtain ⟨data, c3, hdata, hreg⟩ := run_bind_eq_some.1 hnumbers
          obtain ⟨c5, haug⟩ := (parseAugmentation_rejects_iff (f := f) (c := c4)).2 ⟨first, letters, rfl, hz⟩
          refine ⟨c5, run_bind_eq_some.2 ⟨_, _, hnext, ?_⟩⟩
          rw [if_neg hv]
          exact run_bind_eq_some.2 ⟨_, _, hs, run_bind_eq_some.2 ⟨_, _, hcode, run_bind_eq_some.2 ⟨_, _, hdata,
            run_bind_eq_some.2 ⟨_, _, hreg, run_bind_eq_some.2 ⟨_, _, haug, rfl⟩⟩⟩⟩⟩

theorem parseCIE_rejects_iff {stop : Address} {index : Nat} :
    parseCIE f fuel fields stop length index = some none ↔ UnknownVersion f fields ∨ UnknownAugmentation f fields := by
  rw [← parseCIEFields_rejects_iff]
  constructor
  · intro h
    simp only [parseCIE, Option.bind_eq_bind, Option.bind_eq_some_iff] at h
    obtain ⟨⟨cie, c'⟩, hfields, h⟩ := h
    cases cie with
    | none => exact ⟨c', hfields⟩
    | some cie =>
      obtain ⟨_, _, h⟩ := Option.bind_eq_some_iff.1 h
      cases h
  · rintro ⟨c', h⟩
    simp only [parseCIE, h, Option.bind_eq_bind, Option.bind_some]
    rfl

/-! ## The collected entries -/

/-- The map finds a CIE exactly at the starts of those in the list. -/
def Mapped (info : DwarfUnwindInfo) : Prop :=
  ∀ a, (info.findCIE a).isSome ↔ ∃ cie ∈ info.cieList, cie.startAddress = a

theorem Mapped.addCIE {cie : DwarfCIE} (h : Mapped info) (hadd : info.addCIE (some cie) = some info') :
    Mapped info' := by
  cases hadd
  intro a
  have := h a
  by_cases ha : a = cie.startAddress
  · simp [DwarfUnwindInfo.findCIE, ha]
  · simp only [DwarfUnwindInfo.findCIE, Function.update_of_ne ha, List.mem_append, List.mem_singleton, or_and_right,
      exists_or, exists_eq_left, Ne.symm ha, or_false]
    exact this

theorem Mapped.parseEntry {cursor : DwarfCursor} {stop : Address} (h : Mapped info)
    (hentry : parseEntry f fuel info cursor stop length = some info') : Mapped info' := by
  simp only [Dwarf.parseEntry, Option.bind_eq_bind, Option.bind_eq_some_iff] at hentry
  obtain ⟨⟨entryID, c⟩, -, hentry⟩ := hentry
  simp only at hentry
  split at hentry
  · obtain ⟨cie, -, hadd⟩ := Option.bind_eq_some_iff.1 hentry
    cases cie with
    | none => cases hadd
    | some cie => exact h.addCIE hadd
  · split at hentry
    · obtain ⟨fde, -, hadd⟩ := Option.bind_eq_some_iff.1 hentry
      cases hadd
      exact h
    · cases hentry
      exact h

theorem Arrives.mapped (h : Arrives f fuel info start) : Mapped info := by
  unfold Arrives at h
  generalize hr : (info, start) = r at h
  induction h generalizing info start with
  | refl =>
    cases hr
    exact fun a => by simp [DwarfUnwindInfo.findCIE, DwarfUnwindInfo.empty]
  | tail _ hstep ih =>
    cases hr
    obtain ⟨-, _, _, _, -, -, hentry, -⟩ := hstep
    exact (ih rfl).parseEntry hentry

/-! ## One entry -/

/-- The rounds are deterministic, so an entry is passed over exactly when it is taken in
without an effect. -/
theorem passedOver_iff (he : EntryAt f start length distance entryID startOfEntry fields) :
    PassedOver f fuel info start distance ↔ ∃ cursor, cursor.cursor = startOfEntry ∧
      (next f 4).run cursor = some (entryID, fields) ∧
      parseEntry f fuel info cursor (start + distance) length = some info := by
  obtain ⟨cursor, hlength, hstart, hid⟩ := he.header
  constructor
  · rintro ⟨-, length', distance', cursor', hlength', -, hentry, -⟩
    cases hlength.symm.trans hlength'
    exact ⟨cursor, hstart, hid, hentry⟩
  · rintro ⟨cursor', hstart', hid', hentry⟩
    have hcursor : cursor' = cursor := by
      rw [next_run, Option.map_eq_some_iff] at hid hid'
      obtain ⟨_, -, heq⟩ := hid
      obtain ⟨_, -, heq'⟩ := hid'
      have hstarts := (congrArg (fun p => p.2.start) heq').trans (congrArg (fun p => p.2.start) heq).symm
      cases cursor
      cases cursor'
      simp only [DwarfCursor.mk.injEq]
      exact ⟨hstarts, hstart'.trans hstart.symm⟩
    rw [hcursor] at hentry
    exact ⟨he.inside, length, distance, cursor, hlength, he.length_ne, hentry, rfl⟩

/-- A rejected CIE is a null pointer that `addCIE` reads from. -/
theorem not_passedOver_of_rejected (he : EntryAt f start length distance 0 startOfEntry fields)
    (hr : UnknownVersion f fields ∨ UnknownAugmentation f fields) : ¬ PassedOver f fuel info start distance := by
  rw [passedOver_iff he]
  rintro ⟨cursor, -, hid, hentry⟩
  simp only [Dwarf.parseEntry, hid, Option.bind_eq_bind, Option.bind_some, if_true, parseCIE_rejects_iff.2 hr] at hentry
  cases hentry

theorem passedOver_of_missing (he : EntryAt f start length distance entryID startOfEntry fields) (hid : entryID ≠ 0)
    (hmap : Mapped info) (hmissing : ∀ cie ∈ info.cieList, cie.startAddress ≠ startOfEntry - entryID) :
    PassedOver f fuel info start distance := by
  obtain ⟨cursor, -, hstart, hnext⟩ := he.header
  have hnone : info.findCIE (startOfEntry - entryID) = none := by
    rw [← Option.not_isSome_iff_eq_none, hmap]
    rintro ⟨cie, hmem, heq⟩
    exact hmissing cie hmem heq
  refine (passedOver_iff he).2 ⟨cursor, hstart, hnext, ?_⟩
  simp only [Dwarf.parseEntry, hnext, Option.bind_eq_bind, Option.bind_some, if_neg hid, hstart, hnone]
  rfl

/-- Every rejected CIE and every FDE without a CIE is passed over, if and only if no round
arrives at a CIE of an unknown version or with an augmentation string of an unknown form. -/
theorem rejected_passed_over_iff (f : EhFrame) (fuel : Nat) :
    SkipsRejected f fuel ↔ ∀ info start length distance startOfEntry fields, Arrives f fuel info start →
      EntryAt f start length distance 0 startOfEntry fields →
      ¬ (UnknownVersion f fields ∨ UnknownAugmentation f fields) := by
  constructor
  · intro h info start length distance startOfEntry fields harrives he hr
    exact not_passedOver_of_rejected he hr
      (h.cie info start length distance startOfEntry fields harrives he (parseCIE_rejects_iff.2 hr))
  · intro h
    refine ⟨?_, ?_⟩
    · intro info start length distance startOfEntry fields harrives he hcie
      exact absurd (parseCIE_rejects_iff.1 hcie) (h info start length distance startOfEntry fields harrives he)
    · intro info start length distance entryID startOfEntry fields harrives he hid hmissing
      exact passedOver_of_missing he hid harrives.mapped hmissing

/-- One CIE of version 4. -/
def laterVersion : EhFrame where
  readAddress := 0x7f0000001000
  virtualAddress := 0x2000
  bytes := leBytes 4 12 ++ leBytes 4 0 ++ [4, 0, 8, 0, 1, 0x78, 0x10, 0]
  mapped := by decide

theorem laterVersion_not_passed_over : ¬ ∃ fuel, SkipsRejected laterVersion fuel := by
  rintro ⟨fuel, h⟩
  have hlength : (nextLength laterVersion).run (.at laterVersion.readAddress) =
      some ((12, 16), ⟨laterVersion.readAddress, laterVersion.readAddress + 4⟩) := by decide +kernel
  have hid : (next laterVersion 4).run ⟨laterVersion.readAddress, laterVersion.readAddress + 4⟩ =
      some (0, ⟨laterVersion.readAddress, laterVersion.readAddress + 8⟩) := by decide +kernel
  have he : EntryAt laterVersion laterVersion.readAddress 12 16 0 (laterVersion.readAddress + 4)
      ⟨laterVersion.readAddress, laterVersion.readAddress + 8⟩ :=
    ⟨by decide +kernel, by decide, _, hlength, rfl, hid⟩
  have hversion : UnknownVersion laterVersion ⟨laterVersion.readAddress, laterVersion.readAddress + 8⟩ :=
    ⟨4, by decide +kernel, by decide, by decide⟩
  exact not_passedOver_of_rejected he (.inl hversion)
    (h.cie _ _ _ _ _ _ .refl he (parseCIE_rejects_iff.2 (.inl hversion)))

end Egalito.Dwarf
