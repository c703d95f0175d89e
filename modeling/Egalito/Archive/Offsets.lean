import Egalito.Archive.Model
/-!
# The offsets in an archive

`assignOffsets` computes where each record will start from the widths it takes
the fields to have, two bytes for the type; `writeData` writes the type in one.
-/

open Egalito.Lib

namespace Egalito.Archive

/-- What `writeData` puts out in front of the records. -/
def fileHeader (count : Nat) : List UInt8 := signature ++ (writeU32 version ++ writeU32 (UInt32.ofNat count))

/-- The archive is written, and each record starts at the offset that it names. -/
def OffsetsRight (flats : List FlatChunk) : Prop :=
  ∃ file, write flats = some file ∧ ∀ before flat after, assignOffsets flats = before ++ flat :: after →
    ∃ bytes record rest, writeFlatChunks before = some bytes ∧ writeFlatChunk flat = some record ∧
      file = fileHeader flats.length ++ (bytes ++ (record ++ rest)) ∧
        flat.offset.toNat = (fileHeader flats.length ++ bytes).length

/-! ## What is written -/

variable {flats before after : List FlatChunk} {flat : FlatChunk} {bytes record file : List UInt8}

theorem length_fileHeader (count : Nat) : (fileHeader count).length = 16 := by
  simp [fileHeader, signature, writeU32, length_leBytes]

theorem length_writeFlatChunk (h : writeFlatChunk flat = some record) : record.length = 13 + flat.getSize.toNat := by
  simp only [writeFlatChunk, Option.bind_eq_bind, Option.bind_eq_some_iff, Option.pure_def, Option.some.injEq] at h
  obtain ⟨code, -, rfl⟩ := h
  have hsize : flat.getSize.toNat ≤ flat.data.length := by
    rw [FlatChunk.getSize, UInt32.toNat_ofNat']
    exact Nat.mod_le _ _
  simp only [List.length_append, writeU8, writeU32, length_leBytes, List.length_cons, List.length_nil, List.length_take,
    min_eq_left hsize]
  omega

theorem writeFlatChunks_append (l l' : List FlatChunk) : writeFlatChunks (l ++ l') = (do
    return (← writeFlatChunks l) ++ (← writeFlatChunks l')) := by
  induction l with
  | nil => cases h : writeFlatChunks l' <;> simp [writeFlatChunks, h]
  | cons flat l ih =>
    rw [List.cons_append, writeFlatChunks, writeFlatChunks, ih]
    cases writeFlatChunk flat with
    | none => rfl
    | some record => cases writeFlatChunks l <;> cases writeFlatChunks l' <;> simp

/-- The type of every chunk has a code on disk. -/
def Encodable (flats : List FlatChunk) : Prop := ∀ flat ∈ flats, (encodeChunkType flat.type).isSome

theorem writeFlatChunks_isSome_iff : (writeFlatChunks flats).isSome ↔ Encodable flats := by
  induction flats with
  | nil => simp [writeFlatChunks, Encodable]
  | cons flat flats ih =>
    rw [Encodable, List.forall_mem_cons, ← Encodable, ← ih, writeFlatChunks, writeFlatChunk]
    cases encodeChunkType flat.type with
    | none => simp
    | some code => cases writeFlatChunks flats <;> simp

theorem encodable_assignOffsetsFrom (totalSize : UInt32) : Encodable (assignOffsetsFrom totalSize flats) ↔ Encodable flats := by
  induction flats generalizing totalSize with
  | nil => exact Iff.rfl
  | cons flat flats ih =>
    rw [assignOffsetsFrom, Encodable, List.forall_mem_cons, ← Encodable, ih, Encodable, Encodable, List.forall_mem_cons]

theorem length_assigned (totalSize : UInt32) : (assignOffsetsFrom totalSize flats).length = flats.length := by
  induction flats generalizing totalSize with
  | nil => rfl
  | cons flat flats ih => rw [assignOffsetsFrom, List.length_cons, ih, List.length_cons]

/-- The file, split at a record. -/
theorem write_split (h : write flats = some file) (heq : assignOffsets flats = before ++ flat :: after) :
    ∃ bytes record rest, writeFlatChunks before = some bytes ∧ writeFlatChunk flat = some record ∧
      file = fileHeader flats.length ++ (bytes ++ (record ++ rest)) := by
  simp only [write, writeData, heq, writeFlatChunks_append, writeFlatChunks, Option.bind_eq_bind,
    Option.bind_eq_some_iff, Option.pure_def, Option.some.injEq] at h
  obtain ⟨chunks, ⟨bytes, hbytes, more, ⟨record, hrecord, rest, hrest, rfl⟩, rfl⟩, rfl⟩ := h
  refine ⟨bytes, record, rest, hbytes, hrecord, ?_⟩
  have hlength : (before ++ flat :: after).length = flats.length := by rw [← heq, assignOffsets, length_assigned]
  rw [hlength]
  simp only [fileHeader, List.append_assoc]

/-! ## Where the records are taken to start -/

/-- Every record before it is taken to be one byte longer than it is. -/
theorem offset_eq {totalSize : UInt32} (heq : assignOffsetsFrom totalSize flats = before ++ flat :: after)
    (hbytes : writeFlatChunks before = some bytes) :
    flat.offset.toNat = (totalSize.toNat + bytes.length + before.length) % 2 ^ 32 := by
  induction before generalizing flats totalSize bytes with
  | nil =>
    cases hbytes
    cases flats with
    | nil => simp [assignOffsetsFrom] at heq
    | cons first flats =>
      rw [assignOffsetsFrom, List.nil_append, List.cons.injEq] at heq
      obtain ⟨rfl, -⟩ := heq
      exact (Nat.mod_eq_of_lt totalSize.toNat_lt).symm
  | cons first before ih =>
    cases flats with
    | nil => simp [assignOffsetsFrom] at heq
    | cons flat₀ flats =>
      rw [assignOffsetsFrom, List.cons_append, List.cons.injEq] at heq
      obtain ⟨hfirst, heq⟩ := heq
      simp only [writeFlatChunks, Option.bind_eq_bind, Option.bind_eq_some_iff, Option.pure_def, Option.some.injEq] at hbytes
      obtain ⟨record, hrecord, rest, hrest, rfl⟩ := hbytes
      have hsize : flat₀.getSize = first.getSize := by rw [← hfirst]; rfl
      rw [ih heq hrest, List.length_append, length_writeFlatChunk hrecord, hsize, List.length_cons]
      simp only [UInt32.toNat_add, UInt32.toNat_mul, UInt32.reduceToNat]
      omega

theorem length_le_of_written (hbytes : writeFlatChunks before = some bytes) : 13 * before.length ≤ bytes.length := by
  induction before generalizing bytes with
  | nil => exact Nat.zero_le _
  | cons first before ih =>
    simp only [writeFlatChunks, Option.bind_eq_bind, Option.bind_eq_some_iff, Option.pure_def, Option.some.injEq] at hbytes
    obtain ⟨record, hrecord, rest, hrest, rfl⟩ := hbytes
    have := ih hrest
    rw [List.length_append, length_writeFlatChunk hrecord, List.length_cons]
    omega

/-- Only the first record starts where it says. -/
theorem offset_right_iff (heq : assignOffsets flats = before ++ flat :: after) (hbytes : writeFlatChunks before = some bytes) :
    flat.offset.toNat = (fileHeader flats.length ++ bytes).length ↔ before = [] := by
  have hstart : (UInt32.ofNat signature.length + 4 + 4).toNat = 16 := by decide
  have hoffset := offset_eq heq hbytes
  have hle := length_le_of_written hbytes
  rw [hstart] at hoffset
  rw [List.length_append, length_fileHeader, hoffset, ← List.length_eq_zero_iff]
  constructor
  · intro h
    omega
  · intro h
    obtain rfl := List.length_eq_zero_iff.1 h
    obtain rfl := Option.some.inj hbytes
    rfl

/-- Every record starts at its offset exactly when there is no second record. -/
theorem offsets_right_iff (flats : List FlatChunk) : OffsetsRight flats ↔ flats.length ≤ 1 ∧ Encodable flats := by
  have hsome : (∃ file, write flats = some file) ↔ Encodable flats := by
    rw [← Option.isSome_iff_exists, ← encodable_assignOffsetsFrom (UInt32.ofNat signature.length + 4 + 4),
      ← writeFlatChunks_isSome_iff, write, writeData]
    cases h : writeFlatChunks (assignOffsets flats) with
    | none => rw [assignOffsets] at h; simp [h]
    | some bytes => rw [assignOffsets] at h; simp [h]
  have hlength : (assignOffsets flats).length = flats.length := length_assigned _
  constructor
  · rintro ⟨file, hw, hall⟩
    refine ⟨?_, hsome.1 ⟨file, hw⟩⟩
    by_contra hlt
    obtain ⟨first, second, rest, hassigned⟩ : ∃ first second rest, assignOffsets flats = [first] ++ second :: rest := by
      match h : assignOffsets flats with
      | [] => simp [h] at hlength; omega
      | [_] => simp [h] at hlength; omega
      | first :: second :: rest => exact ⟨first, second, rest, rfl⟩
    obtain ⟨bytes, -, -, hbytes, -, -, hright⟩ := hall [first] second rest hassigned
    have hnil := (offset_right_iff hassigned hbytes).1 hright
    cases hnil
  · rintro ⟨hle, hcodes⟩
    obtain ⟨file, hw⟩ := hsome.2 hcodes
    refine ⟨file, hw, fun before flat after heq => ?_⟩
    obtain ⟨bytes, record, rest, hbytes, hrecord, hfile⟩ := write_split hw heq
    refine ⟨bytes, record, rest, hbytes, hrecord, hfile, (offset_right_iff heq hbytes).2 ?_⟩
    rw [heq, List.length_append, List.length_cons] at hlength
    exact List.length_eq_zero_iff.1 (by omega)

/-- The second of two empty chunks starts one byte in front of its offset. -/
theorem second_offset : ¬ OffsetsRight [⟨.program, 0, 0, []⟩, ⟨.module, 1, 0, []⟩] := by
  rintro ⟨file, -, hall⟩
  have hassigned : assignOffsets [⟨.program, 0, 0, []⟩, ⟨.module, 1, 0, []⟩] =
      [⟨.program, 0, 16, []⟩] ++ ⟨.module, 1, 30, []⟩ :: [] := by decide
  obtain ⟨bytes, -, -, hbytes, -, -, hright⟩ := hall _ _ _ hassigned
  have hwritten : (writeFlatChunks [⟨.program, 0, 16, []⟩]).map List.length = some 13 := by decide
  rw [hbytes, Option.map_some, Option.some.injEq] at hwritten
  rw [List.length_append, length_fileHeader, hwritten] at hright
  exact absurd hright (by decide)

end Egalito.Archive
