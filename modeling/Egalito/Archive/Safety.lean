import Egalito.Archive.Model
import Mathlib
/-!
# Reading any file

What `EgalitoArchiveReader::read` does on bytes that no writer made. The id, the
size and the count are whatever the file says, and each record must end up at the
index of its id.
-/

open Egalito.Lib

namespace Egalito.Archive

/-! ## Reads end -/

theorem exists_read (n : Nat) (s : Stream) : ∃ bs s', readFixedLengthBytes n s = some (bs, s') := by
  rw [readFixedLengthBytes, Reader.read]
  split_ifs <;> exact ⟨_, _, rfl⟩

theorem exists_readU8 (s : Stream) : ∃ v s', readU8 s = some (v, s') := by
  obtain ⟨bs, s', h⟩ := exists_read 1 s
  rw [readFixedLengthBytes] at h
  exact ⟨UInt8.ofNat (leNat bs), s', by simp [readU8, Reader.readLE, Functor.map, StateT.map,
    StateT.bind, bind, pure, StateT.pure, h]⟩

theorem exists_readU32 (s : Stream) : ∃ v s', readU32 s = some (v, s') := by
  obtain ⟨bs, s', h⟩ := exists_read 4 s
  rw [readFixedLengthBytes] at h
  exact ⟨UInt32.ofNat (leNat bs), s', by simp [readU32, Reader.readLE, Functor.map, StateT.map,
    StateT.bind, bind, pure, StateT.pure, h]⟩

/-! ## The reader, from its uninitialised count -/

/-- `readHeader`, where `flatCount` is what the caller's variable holds before. It keeps
that value when the file ends before the count does. -/
def readHeaderFrom (flatCount : UInt32) : Reader (Option UInt32) := do
  let line ← readFixedLengthBytes signature.length
  if !(← Reader.stillGood) || line != signature then return none
  let fileVersion ← readU32
  if !(← Reader.stillGood) then return none
  if fileVersion > version then return none
  let count ← readU32
  if ← Reader.stillGood then return some count else return some flatCount

def readArchiveFrom (flatCount : UInt32) : Reader (Option FlatChunkList) := do
  match ← readHeaderFrom flatCount with
  | none => return none
  | some flatCount => readFlatChunks flatCount.toNat []

def readFrom (flatCount : UInt32) (file : List UInt8) : Option (Option FlatChunkList) :=
  (readArchiveFrom flatCount ⟨file, true⟩).map Prod.fst

/-- `read` is the case where the bytes that the file lacks are 0. -/
theorem exists_read_eq_readFrom (file : List UInt8) : ∃ flatCount, read file = readFrom flatCount file := by
  obtain ⟨flatCount, h⟩ : ∃ flatCount, readHeader ⟨file, true⟩ = readHeaderFrom flatCount ⟨file, true⟩ := by
    obtain ⟨line, s₁, h₁⟩ := exists_read signature.length ⟨file, true⟩
    obtain ⟨fileVersion, s₂, h₂⟩ := exists_readU32 s₁
    obtain ⟨count, s₃, h₃⟩ := exists_readU32 s₂
    refine ⟨count, ?_⟩
    simp only [readHeader, readHeaderFrom, bind, StateT.bind, Reader.stillGood, h₁, Option.bind_some]
    split_ifs with hline
    · rfl
    simp only [bind, StateT.bind, Reader.stillGood, h₂, Option.bind_some]
    split_ifs with hgood hversion
    · rfl
    · rfl
    simp only [bind, StateT.bind, Reader.stillGood, h₃, Option.bind_some]
    cases s₃.good <;> rfl
  exact ⟨flatCount, congrArg (fun header => (header.bind fun (count, s) => (match count with
    | none => pure none
    | some flatCount => readFlatChunks flatCount.toNat []) s).map Prod.fst) h⟩

/-! ## What the file encodes -/

/-- The records in front of the first one that is cut off, at most `count`. -/
def encodedChunks : Nat → List UInt8 → List FlatChunk
  | 0, _ => []
  | count + 1, bytes =>
    match readFlatChunk ⟨bytes, true⟩ with
    | some (flat, ⟨rest, true⟩) => flat :: encodedChunks count rest
    | _ => []

def encodedInFile (file : List UInt8) : List FlatChunk :=
  match readHeaderFrom 0 ⟨file, true⟩ with
  | some (some count, ⟨rest, true⟩) => encodedChunks count.toNat rest
  | _ => []

/-- All of a record's bytes are in the file. -/
def EncodedIn (file : List UInt8) (flat : FlatChunk) : Prop :=
  ∃ before code after, decodeChunkType code = flat.type ∧ file = before ++ (writeU8 code ++ (writeU32 flat.id ++
    (writeU32 flat.offset ++ (writeU32 flat.getSize ++ flat.data)))) ++ after

/-- The input is rejected, or gives a list without an access outside of the list or of the data:
each entry has its index for its id, and is all there in the file. -/
def ReadsSafely (flatCount : UInt32) (file : List UInt8) : Prop :=
  ∃ result, readFrom flatCount file = some result ∧ ∀ flatList, result = some flatList →
    ∀ (i : Nat) flat, flatList[i]? = some (some flat) → flat.id.toNat = i ∧ EncodedIn file flat

/-! ## One record -/

theorem splits_readU8 : Splits readU8 (fun v bs => bs = writeU8 v) := by
  refine splits_map (splits_readLE 1) ?_
  rintro v bs rfl
  rfl

theorem splits_readU32 : Splits readU32 (fun v bs => bs = writeU32 v) := by
  refine splits_map (splits_readLE 4) ?_
  rintro v bs rfl
  rw [writeU32, UInt32.toNat_ofNat', ← leBytes_mod 4 v]
  rfl

theorem splits_readFlatChunk : Splits readFlatChunk (fun flat bs => ∃ code, decodeChunkType code = flat.type ∧
    bs = writeU8 code ++ (writeU32 flat.id ++ (writeU32 flat.offset ++ (writeU32 flat.getSize ++ flat.data)))) := by
  refine splits_readU8.bind fun code => splits_readU32.bind fun id => splits_readU32.bind fun offset =>
    splits_readU32.bind fun size => (splits_read size.toNat).bind_pure ?_
  rintro data _ ⟨rfl, hlen⟩ _ rfl _ rfl _ rfl _ rfl
  have hsize : FlatChunk.getSize ⟨decodeChunkType code, id, offset, data⟩ = size := by
    rw [FlatChunk.getSize, hlen, UInt32.ofNat_toNat]
  exact ⟨code, rfl, by rw [hsize]⟩

/-- On any stream a record is read, if only of zeros. -/
theorem exists_readFlatChunk (s : Stream) : ∃ flat s', readFlatChunk s = some (flat, s') := by
  obtain ⟨type, s₁, h₁⟩ := exists_readU8 s
  obtain ⟨id, s₂, h₂⟩ := exists_readU32 s₁
  obtain ⟨offset, s₃, h₃⟩ := exists_readU32 s₂
  obtain ⟨size, s₄, h₄⟩ := exists_readU32 s₃
  obtain ⟨data, s₅, h₅⟩ := exists_read size.toNat s₄
  refine ⟨⟨decodeChunkType type, id, offset, data⟩, s₅, ?_⟩
  simp only [readFlatChunk, bind, StateT.bind, pure, StateT.pure, Option.bind_some, h₁, h₂, h₃, h₄, h₅]

/-! ## One entry -/

theorem toNat_id_succ {id : UInt32} (hid : id ≠ 0xffffffff) : (id + 1).toNat = id.toNat + 1 := by
  have hne : id.toNat ≠ 0xffffffff := fun h => hid (UInt32.toNat.inj h)
  have hlt := id.toNat_lt
  rw [UInt32.toNat_add]
  change (id.toNat + 1) % 2 ^ 32 = _
  omega

/-- The list is resized to hold the id, if that takes more than it has. -/
theorem addFlatChunk_of_ne {flatList : FlatChunkList} {flat : FlatChunk} (hid : flat.id ≠ 0xffffffff) :
    flatList.addFlatChunk flat = some ((flatList ++
      List.replicate (flat.id.toNat + 1 - flatList.length) none).set flat.id.toNat (some flat)) := by
  rw [FlatChunkList.addFlatChunk, toNat_id_succ hid]
  split
  · rw [if_pos (by rw [List.length_append, List.length_replicate]; omega)]
  · rename_i hlen
    rw [if_pos (by omega), Nat.sub_eq_zero_of_le (by omega), List.replicate_zero, List.append_nil]

/-- The last id wraps the size that the list is given to 0. -/
theorem addFlatChunk_last {flatList : FlatChunkList} {flat : FlatChunk}
    (hlen : flatList.length ≤ 0xffffffff) (hid : flat.id = 0xffffffff) : flatList.addFlatChunk flat = none := by
  rw [FlatChunkList.addFlatChunk, hid]
  change (if 0xffffffff < (if flatList.length < 0 then _ else _ : FlatChunkList).length then _ else _) = none
  rw [if_neg (Nat.not_lt_zero _), if_neg (by omega)]

theorem addFlatChunk_spec {flatList : FlatChunkList} {flat : FlatChunk}
    (hlen : flatList.length ≤ 0xffffffff) (hid : flat.id ≠ 0xffffffff) :
    ∃ flatList', flatList.addFlatChunk flat = some flatList' ∧ flatList'.length ≤ 0xffffffff ∧
      ∀ (i : Nat) entry, flatList'[i]? = some (some entry) →
        entry = flat ∧ flat.id.toNat = i ∨ flatList[i]? = some (some entry) := by
  refine ⟨_, addFlatChunk_of_ne hid, ?_, fun i entry hi => ?_⟩
  · have hlt := flat.id.toNat_lt
    have hne : flat.id.toNat ≠ 0xffffffff := fun h => hid (UInt32.toNat.inj h)
    rw [List.length_set, List.length_append, List.length_replicate]
    omega
  · by_cases hfi : flat.id.toNat = i
    · rw [List.getElem?_set, if_pos hfi] at hi
      split at hi
      · exact .inl ⟨(Option.some.inj (Option.some.inj hi)).symm, hfi⟩
      · cases hi
    · rw [List.getElem?_set_ne hfi] at hi
      rcases Nat.lt_or_ge i flatList.length with hlt | hge
      · rw [List.getElem?_append_left hlt] at hi
        exact .inr hi
      · rw [List.getElem?_append_right hge, List.getElem?_replicate] at hi
        split at hi <;> cases hi

/-! ## The loop -/

/-- The entries of a list that records of the file have made. -/
structure Sound (file : List UInt8) (flatList : FlatChunkList) : Prop where
  length_le : flatList.length ≤ 0xffffffff
  entry : ∀ (i : Nat) flat, flatList[i]? = some (some flat) → flat.id.toNat = i ∧ EncodedIn file flat

theorem sound_nil (file : List UInt8) : Sound file [] := ⟨Nat.zero_le _, fun _ _ h => nomatch h⟩

/-- Running a round of the loop. -/
theorem readFlatChunks_succ {count : Nat} {flatList : FlatChunkList} {s s' : Stream} {flat : FlatChunk}
    (h : readFlatChunk s = some (flat, s')) : readFlatChunks (count + 1) flatList s =
      if s'.good then (flatList.addFlatChunk flat).bind (fun flatList => readFlatChunks count flatList s')
      else some (none, s') := by
  simp only [readFlatChunks, bind, StateT.bind, h, Option.bind_some, Reader.stillGood]
  cases s'.good with
  | false => rfl
  | true =>
    simp only [Bool.not_true, Bool.false_eq_true, if_false, if_true]
    cases flatList.addFlatChunk flat <;> rfl

/-- A stream that is bad stays bad: the loop stops at once, at its end or at an error. -/
theorem readFlatChunks_bad (flatList : FlatChunkList) (rest : List UInt8) (count : Nat) :
    ∃ result s', readFlatChunks count flatList ⟨rest, false⟩ = some (result, s') ∧
      (result = none ∨ result = some flatList) := by
  cases count with
  | zero => exact ⟨_, _, rfl, .inr rfl⟩
  | succ count =>
    obtain ⟨flat, s', h⟩ := exists_readFlatChunk ⟨rest, false⟩
    refine ⟨none, s', ?_, .inl rfl⟩
    rw [readFlatChunks_succ h, if_neg]
    intro hgood
    exact absurd (splits_readFlatChunk _ _ _ h hgood).1 Bool.false_ne_true

/-- The loop, on what is left of the file. -/
theorem readFlatChunks_spec (count : Nat) {file before rest : List UInt8} {flatList : FlatChunkList}
    (hfile : file = before ++ rest) (hsound : Sound file flatList) :
    ((∃ r, readFlatChunks count flatList ⟨rest, true⟩ = some r) ↔
      ∀ flat ∈ encodedChunks count rest, flat.id ≠ 0xffffffff) ∧
    ∀ flatList' s', readFlatChunks count flatList ⟨rest, true⟩ = some (some flatList', s') →
      Sound file flatList' := by
  induction count generalizing before flatList rest with
  | zero =>
    refine ⟨iff_of_true ⟨_, rfl⟩ (fun _ h => nomatch h), ?_⟩
    rintro _ _ ⟨⟩
    exact hsound
  | succ count ih =>
    obtain ⟨flat, ⟨rest', good⟩, h⟩ := exists_readFlatChunk ⟨rest, true⟩
    rw [readFlatChunks_succ h, encodedChunks, h]
    cases good with
    | false => exact ⟨iff_of_true ⟨_, rfl⟩ (fun _ h => nomatch h), fun _ _ h => nomatch h⟩
    | true =>
      obtain ⟨-, bs, ⟨code, htype, hbs⟩, hrest⟩ := splits_readFlatChunk _ _ _ h rfl
      have hfile' : file = before ++ bs ++ rest' := by
        rw [hfile, List.append_assoc]
        exact congrArg (before ++ ·) hrest
      simp only [if_true, List.forall_mem_cons]
      by_cases hid : flat.id = 0xffffffff
      · rw [addFlatChunk_last hsound.length_le hid]
        exact ⟨iff_of_false (by rintro ⟨_, h⟩; cases h) fun h => h.1 hid, fun _ _ h => nomatch h⟩
      · obtain ⟨flatList', hadd, hlen, hentry⟩ := addFlatChunk_spec hsound.length_le hid
        have hsound' : Sound file flatList' := by
          refine ⟨hlen, fun i entry hi => ?_⟩
          rcases hentry i entry hi with ⟨rfl, hi⟩ | hi
          · exact ⟨hi, before, code, rest', htype, by rw [hfile', hbs]⟩
          · exact hsound.entry i entry hi
        obtain ⟨hiff, hrun⟩ := ih hfile' hsound'
        rw [hadd, Option.bind_some, hiff]
        exact ⟨⟨fun h => ⟨hid, h⟩, fun h => h.2⟩, hrun⟩

/-! ## The whole file -/

/-- The header is refused, or it ends before its count does, or the count is there. -/
theorem readHeaderFrom_cases (file : List UInt8) :
    (∃ s', ∀ flatCount, readHeaderFrom flatCount ⟨file, true⟩ = some (none, s')) ∨
    (∃ rest, ∀ flatCount, readHeaderFrom flatCount ⟨file, true⟩ = some (some flatCount, ⟨rest, false⟩)) ∨
    ∃ count before rest, file = before ++ rest ∧
      ∀ flatCount, readHeaderFrom flatCount ⟨file, true⟩ = some (some count, ⟨rest, true⟩) := by
  obtain ⟨line, s₁, h₁⟩ := exists_read signature.length ⟨file, true⟩
  obtain ⟨fileVersion, s₂, h₂⟩ := exists_readU32 s₁
  obtain ⟨count, ⟨rest, good⟩, h₃⟩ := exists_readU32 s₂
  simp only [readHeaderFrom, bind, StateT.bind, Reader.stillGood, h₁, Option.bind_some]
  split_ifs with hline
  · exact .inl ⟨_, fun _ => rfl⟩
  simp only [bind, StateT.bind, Reader.stillGood, h₂, Option.bind_some]
  split_ifs with hgood hversion
  · exact .inl ⟨_, fun _ => rfl⟩
  · exact .inl ⟨_, fun _ => rfl⟩
  simp only [bind, StateT.bind, Reader.stillGood, h₃, Option.bind_some]
  cases good with
  | false => exact .inr (.inl ⟨rest, fun _ => rfl⟩)
  | true =>
    obtain ⟨hg₂, bs₃, -, hr₃⟩ := splits_readU32 _ _ _ h₃ rfl
    obtain ⟨hg₁, bs₂, -, hr₂⟩ := splits_readU32 _ _ _ h₂ hg₂
    obtain ⟨-, bs₁, -, hr₁⟩ := splits_read _ _ _ _ h₁ hg₁
    refine .inr (.inr ⟨count, bs₁ ++ (bs₂ ++ bs₃), rest, ?_, fun _ => rfl⟩)
    rw [hr₂, hr₃] at hr₁
    rw [List.append_assoc, List.append_assoc]
    exact hr₁

/-- Reading is safe if and only if no record that is read has the last id. -/
theorem reads_safely_iff (flatCount : UInt32) (file : List UInt8) :
    ReadsSafely flatCount file ↔ ∀ flat ∈ encodedInFile file, flat.id ≠ 0xffffffff := by
  have hrun : ∀ result s', readHeaderFrom flatCount ⟨file, true⟩ = some (result, s') →
      readFrom flatCount file = match result with
        | none => some none
        | some count => (readFlatChunks count.toNat [] s').map Prod.fst := by
    intro result s' h
    simp only [readFrom, readArchiveFrom, bind, StateT.bind, h, Option.bind_some]
    cases result <;> rfl
  rw [ReadsSafely, encodedInFile]
  rcases readHeaderFrom_cases file with ⟨s', h⟩ | ⟨rest, h⟩ | ⟨count, before, rest, hfile, h⟩
  · rw [hrun _ _ (h flatCount), h 0]
    exact iff_of_true ⟨none, rfl, fun _ h => nomatch h⟩ fun _ h => nomatch h
  · rw [hrun _ _ (h flatCount), h 0]
    obtain ⟨result, s', hread, hresult⟩ := readFlatChunks_bad [] rest flatCount.toNat
    refine iff_of_true ⟨result, by simp [hread], ?_⟩ fun _ h => nomatch h
    rintro flatList rfl
    rcases hresult with hresult | hresult
    · cases hresult
    · cases hresult
      exact (sound_nil file).entry
  · rw [hrun _ _ (h flatCount), h 0]
    change _ ↔ ∀ flat ∈ encodedChunks count.toNat rest, flat.id ≠ 0xffffffff
    obtain ⟨hiff, hsound⟩ := readFlatChunks_spec count.toNat hfile (sound_nil file)
    rw [← hiff]
    constructor
    · rintro ⟨result, hread, -⟩
      obtain ⟨r, hr, -⟩ := Option.map_eq_some_iff.1 hread
      exact ⟨r, hr⟩
    · rintro ⟨⟨result, s'⟩, hr⟩
      refine ⟨result, by simp [hr], ?_⟩
      rintro flatList rfl
      exact (hsound flatList s' hr).entry

/-- One function, under the last id. -/
def lastIdFile : List UInt8 :=
  signature ++ (writeU32 version ++ (writeU32 1 ++
    (writeU8 0x66 ++ (writeU32 0xffffffff ++ (writeU32 0 ++ writeU32 0)))))

theorem lastIdFile_not_safe : read lastIdFile = none ∧ ¬ ReadsSafely 0 lastIdFile := by
  refine ⟨by decide +kernel, ?_⟩
  rintro ⟨result, h, -⟩
  have hnone : readFrom 0 lastIdFile = none := by decide +kernel
  rw [hnone] at h
  cases h

end Egalito.Archive
