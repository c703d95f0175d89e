import Egalito.Archive.Model
/-!
# Reading an archive back

`read_write` says what the reader makes of any archive the writer puts out;
the round trip of a list of flat chunks is decided from there.
-/

open Egalito.Lib

namespace Egalito.Archive

/-! ## One flat chunk -/

/-- What the reader makes of a flat chunk whose type was written as `code`. -/
def FlatChunk.readBack (flat : FlatChunk) (code : UInt8) : FlatChunk :=
  { flat with type := decodeChunkType code, data := flat.data.take flat.getSize.toNat }

theorem length_take_getSize (flat : FlatChunk) :
    (flat.data.take flat.getSize.toNat).length = flat.getSize.toNat := by
  simp only [List.length_take, FlatChunk.getSize, UInt32.toNat_ofNat']
  exact Nat.min_eq_left (Nat.mod_le _ _)

theorem reads_readFlatChunk {flat : FlatChunk} {code : UInt8} {bytes : List UInt8}
    (hcode : encodeChunkType flat.type = some code) (hw : writeFlatChunk flat = some bytes) :
    Reads readFlatChunk bytes (flat.readBack code) := by
  simp only [writeFlatChunk, hcode, Option.pure_def, Option.bind_eq_bind, Option.bind_some,
    Option.some.injEq] at hw
  subst hw
  refine (reads_readU8 _).bind ((reads_readU32 _).bind ((reads_readU32 _).bind ((reads_readU32 _).bind ?_)))
  have hdata := reads_readFixedLengthBytes (flat.data.take flat.getSize.toNat)
  rw [length_take_getSize] at hdata
  exact hdata.bind_pure rfl

/-! ## The list -/

/-- Adding at the next free index appends. -/
theorem addFlatChunk_append {flatList : FlatChunkList} {flat : FlatChunk}
    (hid : flat.id.toNat = flatList.length) (hlt : flatList.length + 1 < 2 ^ 32) :
    flatList.addFlatChunk flat = some (flatList ++ [some flat]) := by
  have hneed : (flat.id + 1).toNat = flatList.length + 1 := by
    rw [UInt32.toNat_add, hid]
    exact Nat.mod_eq_of_lt hlt
  simp [FlatChunkList.addFlatChunk, hneed, hid]

/-- The flat chunks as the reader makes them, one for each code written. -/
def readBacks (flats : List FlatChunk) (codes : List UInt8) : List FlatChunk :=
  List.zipWith FlatChunk.readBack flats codes

theorem writeFlatChunks_codes {flats : List FlatChunk} {bytes : List UInt8}
    (hw : writeFlatChunks flats = some bytes) :
    ∃ codes, List.Forall₂ (fun flat code => encodeChunkType flat.type = some code) flats codes := by
  induction flats generalizing bytes with
  | nil => exact ⟨[], .nil⟩
  | cons flat flats ih =>
    simp only [writeFlatChunks, writeFlatChunk, Option.pure_def, Option.bind_eq_bind,
      Option.bind_eq_some_iff] at hw
    obtain ⟨first, ⟨code, hcode, -⟩, rest, hrest, -⟩ := hw
    obtain ⟨codes, hcodes⟩ := ih hrest
    exact ⟨code :: codes, .cons hcode hcodes⟩

/-- The reader's loop, started with `flatList` on the bytes of flat chunks whose
ids go on from there, appends them in order. -/
theorem reads_readFlatChunks {flats : List FlatChunk} {codes bytes : List UInt8} {flatList : FlatChunkList}
    (hcodes : List.Forall₂ (fun flat code => encodeChunkType flat.type = some code) flats codes)
    (hids : ∀ i (h : i < flats.length), (flats.get ⟨i, h⟩).id.toNat = flatList.length + i)
    (hlt : flatList.length + flats.length < 2 ^ 32) (hw : writeFlatChunks flats = some bytes) :
    Reads (readFlatChunks flats.length flatList) bytes
      (some (flatList ++ (readBacks flats codes).map some)) := by
  induction hcodes generalizing bytes flatList with
  | nil =>
    cases hw
    rw [readBacks, List.zipWith_nil_left, List.map_nil, List.append_nil]
    exact reads_pure (some flatList)
  | @cons flat code flats codes hcode hcodes ih =>
    simp only [writeFlatChunks, Option.pure_def, Option.bind_eq_bind, Option.bind_eq_some_iff] at hw
    obtain ⟨first, hfirst, rest, hrest, heq⟩ := hw
    cases heq
    simp only [List.length_cons] at hids hlt ⊢
    refine (reads_readFlatChunk hcode hfirst).bind ?_
    have hadd : flatList.addFlatChunk (flat.readBack code) = some (flatList ++ [some (flat.readBack code)]) :=
      addFlatChunk_append (by simpa [FlatChunk.readBack] using hids 0 (by omega)) (by omega)
    have hids' : ∀ i (h : i < flats.length), (flats.get ⟨i, h⟩).id.toNat =
        (flatList ++ [some (flat.readBack code)]).length + i := by
      intro i h
      have := hids (i + 1) (by omega)
      simp only [List.get_eq_getElem, List.getElem_cons_succ] at this
      simp only [List.get_eq_getElem, this, List.length_append, List.length_singleton]
      omega
    have hgo := ih hids' (by simp; omega) hrest
    rw [List.append_assoc, List.singleton_append] at hgo
    exact reads_stillGood.skip ((reads_lift hadd).skip hgo)

/-! ## The archive -/

theorem length_assignOffsetsFrom (totalSize : UInt32) (flats : List FlatChunk) :
    (assignOffsetsFrom totalSize flats).length = flats.length := by
  induction flats generalizing totalSize with
  | nil => rfl
  | cons flat flats ih => simp [assignOffsetsFrom, ih]

/-- Assigning offsets changes nothing else. -/
theorem forall₂_assignOffsetsFrom (totalSize : UInt32) (flats : List FlatChunk) :
    List.Forall₂ (fun flat flat' => flat' = { flat with offset := flat'.offset }) flats
      (assignOffsetsFrom totalSize flats) := by
  induction flats generalizing totalSize with
  | nil => exact .nil
  | cons flat flats ih => exact .cons rfl (ih _)

theorem reads_readHeader (count : UInt32) :
    Reads readHeader (signature ++ (writeU32 version ++ writeU32 count)) (some count) := by
  refine (reads_readFixedLengthBytes signature).bind ?_
  refine reads_stillGood.skip ?_
  simp only [Bool.not_true, bne_self_eq_false, Bool.or_self, Bool.false_eq_true, if_false]
  refine (reads_readU32 version).bind ?_
  refine reads_stillGood.skip ?_
  simp only [Bool.not_true, Bool.false_eq_true, if_false, gt_iff_lt, UInt32.lt_irrefl]
  exact (reads_readU32 count).bind_pure rfl

theorem consecutiveIds_assignOffsets {flats : List FlatChunk} (hids : ConsecutiveIds flats) :
    ConsecutiveIds (assignOffsets flats) := by
  intro i h
  have hlen : i < flats.length := by rwa [assignOffsets, length_assignOffsetsFrom] at h
  have hi := (forall₂_assignOffsetsFrom (UInt32.ofNat signature.length + 4 + 4) flats).get hlen h
  change ((assignOffsets flats).get ⟨i, h⟩) = _ at hi
  rw [hi]
  exact hids i hlen

/-- The ids are 32 bits wide. -/
theorem length_le_of_consecutiveIds {flats : List FlatChunk} (hids : ConsecutiveIds flats) :
    flats.length ≤ 2 ^ 32 := by
  by_contra hlt
  have := hids (2 ^ 32) (by omega)
  have := (flats.get ⟨2 ^ 32, by omega⟩).id.toNat_lt
  omega

theorem read_eq {file bytes : List UInt8} {count : UInt32} {result : Option FlatChunkList}
    (hfile : file = signature ++ (writeU32 version ++ (writeU32 count ++ bytes))) {rest : Lib.Stream}
    (hread : readFlatChunks count.toNat [] ⟨bytes, true⟩ = some (result, rest)) :
    read file = some result := by
  have hheader := reads_readHeader count bytes
  simp only [List.append_assoc] at hheader
  have harchive : readArchive ⟨file, true⟩ = some (result, rest) := by
    change (readHeader ⟨file, true⟩ >>= fun p => _) = _
    rw [hfile, hheader]
    exact hread
  rw [read, harchive]
  rfl

/-- What the reader makes of an archive: nothing if the count wraps around to 0,
and otherwise the flat chunks in order, each with the type of its code. -/
theorem read_writeData {flats : List FlatChunk} {file : List UInt8} (hids : ConsecutiveIds flats)
    (hw : writeData flats = some file) :
    ∃ codes, List.Forall₂ (fun flat code => encodeChunkType flat.type = some code) flats codes ∧
      read file = some (some (if flats.length < 2 ^ 32 then (readBacks flats codes).map some else [])) := by
  simp only [writeData, Option.pure_def, Option.bind_eq_bind, Option.bind_eq_some_iff,
    Option.some.injEq] at hw
  obtain ⟨chunks, hchunks, hfile⟩ := hw
  obtain ⟨codes, hcodes⟩ := writeFlatChunks_codes hchunks
  refine ⟨codes, hcodes, ?_⟩
  have hle := length_le_of_consecutiveIds hids
  split_ifs with hlt
  · have hcount : (UInt32.ofNat flats.length).toNat = flats.length := by
      rw [UInt32.toNat_ofNat']
      exact Nat.mod_eq_of_lt hlt
    have hloop : Reads (readFlatChunks flats.length []) chunks (some ([] ++ (readBacks flats codes).map some)) :=
      reads_readFlatChunks hcodes (fun i h => by simpa using hids i h) (by simpa using hlt) hchunks
    have hloop := hloop []
    rw [List.append_nil, List.nil_append, ← hcount] at hloop
    exact read_eq hfile.symm hloop
  · have hcount : (UInt32.ofNat flats.length).toNat = 0 := by
      rw [UInt32.toNat_ofNat']
      omega
    have hloop : readFlatChunks (UInt32.ofNat flats.length).toNat [] ⟨chunks, true⟩ =
        some (some [], ⟨chunks, true⟩) := by
      rw [hcount]
      rfl
    exact read_eq hfile.symm hloop

/-! ## The round trip -/

theorem restored_readBack_iff {flat : FlatChunk} {offset : UInt32} {code : UInt8}
    (hcode : encodeChunkType flat.type = some code) :
    Restored flat ({ flat with offset }.readBack code) ↔ InTable flat.type ∧ flat.data.length < 2 ^ 32 := by
  have hdata : flat.data.take flat.getSize.toNat = flat.data ↔ flat.data.length < 2 ^ 32 := by
    rw [List.take_eq_self_iff, FlatChunk.getSize, UInt32.toNat_ofNat']
    have := Nat.mod_lt flat.data.length (show 0 < 2 ^ 32 by decide)
    refine ⟨fun h => by omega, fun h => by rw [Nat.mod_eq_of_lt h]⟩
  rw [← survives_iff, ← hdata]
  simp only [Restored, FlatChunk.readBack, FlatChunk.getSize, Survives, hcode, Option.map_some,
    Option.some.injEq, true_and]
  constructor
  · rintro ⟨htype, hdata, cls, hcls, hflat⟩
    rw [htype] at hcls
    exact ⟨⟨htype, by simp [hcls, hflat]⟩, hdata⟩
  · rintro ⟨⟨htype, hcls⟩, hdata⟩
    rw [htype]
    cases hi : instantiate flat.type with
    | none => simp [hi] at hcls
    | some c =>
      cases c with
      | none => simp [hi] at hcls
      | some cls => exact ⟨rfl, hdata, cls, rfl, by simpa [hi] using hcls⟩

theorem forall₂_restored_iff {flats flats' : List FlatChunk} {codes : List UInt8}
    (hoffset : List.Forall₂ (fun flat flat' : FlatChunk => flat' = { flat with offset := flat'.offset })
      flats flats')
    (hcodes : List.Forall₂ (fun flat code => encodeChunkType flat.type = some code) flats' codes) :
    List.Forall₂ Restored flats (readBacks flats' codes) ↔
      ∀ flat ∈ flats, InTable flat.type ∧ flat.data.length < 2 ^ 32 := by
  induction hoffset generalizing codes with
  | nil => simp [readBacks]
  | @cons flat flat' flats flats' hflat hflats ih =>
    cases hcodes with
    | @cons _ code _ codes hcode hcodes =>
      rw [hflat] at hcode ⊢
      have hcode : encodeChunkType flat.type = some code := hcode
      rw [readBacks, List.zipWith_cons_cons, List.forall₂_cons, restored_readBack_iff hcode,
        List.forall_mem_cons]
      exact and_congr_right fun _ => ih hcodes

theorem exists_writeFlatChunks {flats : List FlatChunk} (hflats : ∀ flat ∈ flats, InTable flat.type)
    (totalSize : UInt32) : ∃ bytes, writeFlatChunks (assignOffsetsFrom totalSize flats) = some bytes := by
  induction flats generalizing totalSize with
  | nil => exact ⟨[], rfl⟩
  | cons flat flats ih =>
    rw [List.forall_mem_cons] at hflats
    obtain ⟨bytes, hbytes⟩ := ih hflats.2 (totalSize + (2 + 4 * 3 + flat.getSize))
    obtain ⟨code, hcode, -⟩ := Option.map_eq_some_iff.1 ((survives_iff _).2 hflats.1).1
    exact ⟨_, by simp only [assignOffsetsFrom, writeFlatChunks, writeFlatChunk, hcode, hbytes]; rfl⟩

/-- A list of flat chunks survives the archive exactly when every type stands
before the tables' first gap and no count or length reaches 32 bits. -/
theorem archive_round_trip_iff (flats : List FlatChunk) (hids : ConsecutiveIds flats) :
    RoundTrips flats ↔
      flats.length < 2 ^ 32 ∧ ∀ flat ∈ flats, InTable flat.type ∧ flat.data.length < 2 ^ 32 := by
  have hids' := consecutiveIds_assignOffsets hids
  have hlen : (assignOffsets flats).length = flats.length := length_assignOffsetsFrom _ flats
  have hoffset := forall₂_assignOffsetsFrom (UInt32.ofNat signature.length + 4 + 4) flats
  constructor
  · rintro ⟨file, backs, hw, hread, hback⟩
    obtain ⟨codes, hcodes, hread'⟩ := read_writeData hids' hw
    rw [hread, hlen, Option.some.injEq, Option.some.injEq] at hread'
    have hinj : Function.Injective (List.map (some : FlatChunk → Option FlatChunk)) :=
      List.map_injective_iff.2 (Option.some_injective _)
    split_ifs at hread' with hlt
    · rw [hinj hread'] at hback
      exact ⟨hlt, (forall₂_restored_iff hoffset hcodes).1 hback⟩
    · rw [List.map_eq_nil_iff.1 hread', List.forall₂_nil_right_iff] at hback
      simp [hback] at hlt
  · rintro ⟨hlt, hflats⟩
    obtain ⟨chunks, hchunks⟩ := exists_writeFlatChunks (fun flat h => (hflats flat h).1)
      (UInt32.ofNat signature.length + 4 + 4)
    obtain ⟨file, hw⟩ : ∃ file, write flats = some file :=
      ⟨_, by simp only [write, writeData, assignOffsets, hchunks]; rfl⟩
    obtain ⟨codes, hcodes, hread⟩ := read_writeData hids' hw
    rw [hlen, if_pos hlt] at hread
    exact ⟨file, _, hw, hread, (forall₂_restored_iff hoffset hcodes).2 hflats⟩

/-- A program with one module. -/
theorem archive_round_trip_iff_sample :
    RoundTrips [⟨.program, 0, 0, [1, 0, 0, 0]⟩, ⟨.module, 1, 0, []⟩] := by
  refine (archive_round_trip_iff _ ?_).2 ⟨by decide, by decide⟩
  intro i h
  match i, h with
  | 0, _ => rfl
  | 1, _ => rfl

/-- A function is read back as a block. -/
theorem function_not_restored :
    ConsecutiveIds [⟨.function, 0, 0, []⟩] ∧ ¬ RoundTrips [⟨.function, 0, 0, []⟩] := by
  refine ⟨fun i h => ?_, ?_⟩
  · match i, h with
    | 0, _ => rfl
  · rintro ⟨file, backs, hw, hread, hback⟩
    have hfile : file = signature ++ (writeU32 version ++ (writeU32 1 ++
        (writeU8 0x62 ++ (writeU32 0 ++ (writeU32 16 ++ writeU32 0))))) :=
      (Option.some.inj hw).symm
    have hblock : read file = some (some [some ⟨.block, 0, 16, []⟩]) := by
      rw [hfile]
      decide
    rw [hread, Option.some.injEq, Option.some.injEq] at hblock
    cases hback with
    | @cons flat back flats backs hback _ =>
      have htype := hback.1
      rw [List.map_cons, List.cons.injEq, Option.some.injEq] at hblock
      rw [hblock.1] at htype
      cases htype

end Egalito.Archive
