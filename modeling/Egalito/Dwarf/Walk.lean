import Egalito.Dwarf.Parser
/-!
# The walk over the records of `.eh_frame`

The true places of the records of a well-formed section, and when the parser
finds them.
-/

open Egalito.Lib

namespace Egalito.Dwarf

/-! ## Places in the section -/

namespace EhFrame

variable (f : EhFrame)

/-- The address of an offset. -/
def place (p : Nat) : Address := f.readAddress + BitVec.ofNat 64 p

variable {f} {p q n : Nat}

theorem place_zero : f.place 0 = f.readAddress := by simp [place]

theorem place_add : f.place p + BitVec.ofNat 64 q = f.place (p + q) := by
  rw [place, place, BitVec.add_assoc, ← BitVec.ofNat_add]

theorem toNat_place (hp : f.readAddress.toNat + p < 2 ^ 64) : (f.place p).toNat = f.readAddress.toNat + p := by
  rw [place, BitVec.toNat_add, BitVec.toNat_ofNat, Nat.add_mod_mod, Nat.mod_eq_of_lt hp]

theorem place_lt_iff (hp : f.readAddress.toNat + p < 2 ^ 64) : f.place p < f.endAddress ↔ p < f.bytes.length := by
  rw [BitVec.lt_def, toNat_place hp]
  change _ < (f.place f.bytes.length).toNat ↔ _
  rw [toNat_place f.mapped]
  omega

theorem place_inj (hp : f.readAddress.toNat + p < 2 ^ 64) (hq : f.readAddress.toNat + q < 2 ^ 64)
    (h : f.place p = f.place q) : p = q := by
  have ht := congrArg BitVec.toNat h
  rw [toNat_place hp, toNat_place hq] at ht
  omega

/-- What is read at an offset. -/
theorem read_place (hp : p < 2 ^ 64) : f.read n (f.place p) =
    if p + n ≤ f.bytes.length then some (BitVec.ofNat 64 (leNat ((f.bytes.drop p).take n))) else none := by
  have hsub : (f.place p - f.readAddress).toNat = p := by
    have h : f.place p - f.readAddress = BitVec.ofNat 64 p := by
      rw [place, BitVec.add_comm, BitVec.add_sub_cancel]
    rw [h, BitVec.toNat_ofNat, Nat.mod_eq_of_lt hp]
  simp only [read, hsub]

/-- A number that was written at the offset is read back. -/
theorem read_written {pre post : List UInt8} {v : Nat} (h : f.bytes = pre ++ (leBytes n v ++ post))
    (hv : v < 256 ^ n) : f.read n (f.place pre.length) = some (BitVec.ofNat 64 v) := by
  have hlen : f.bytes.length = pre.length + (n + post.length) := by
    rw [h, List.length_append, List.length_append, length_leBytes]
  have hmapped := f.mapped
  rw [read_place (by omega), if_pos (by omega), h, List.drop_left, List.take_left' (length_leBytes n v),
    leNat_leBytes, Nat.mod_eq_of_lt hv]

end EhFrame

section Steps

variable {f : EhFrame} {fuel : Nat} {c : DwarfCursor} {n : Nat}

theorem next_run : (next f n).run c =
    (f.read n c.cursor).map fun v => (v, { c with cursor := c.cursor + BitVec.ofNat 64 n }) := by
  simp only [next, StateT.run_bind, StateT.run_get, Option.pure_def, Option.bind_eq_bind, Option.bind_some]
  cases f.read n c.cursor <;> rfl

/-! ## Records -/

end Steps

/-- A record of the section: the form of its length, its CIE pointer, which is zero for a CIE,
and what stands behind it. -/
structure Record where
  extended : Bool
  ciePointer : BitVec 32
  body : List UInt8

namespace Record

variable (r : Record)

/-- The length counts what follows it. -/
def length : Nat := 4 + r.body.length

def headerSize : Nat := if r.extended then 12 else 4

/-- From the start of the record to its true end. -/
def size : Nat := r.headerSize + r.length

def header : List UInt8 :=
  if r.extended then leBytes 4 0xffffffff ++ leBytes 8 r.length else leBytes 4 r.length

def encode : List UInt8 := r.header ++ (leBytes 4 r.ciePointer.toNat ++ r.body)

theorem length_header : r.header.length = r.headerSize := by
  unfold header headerSize
  split <;> simp

theorem length_encode : r.encode.length = r.size := by
  simp [encode, length_header, size, length]

/-- A short length is not the mark of an extended one. -/
def Fits : Prop := r.extended = false → r.length < 0xffffffff

/-- From the start of the record to the end that the parser computes. -/
def entryLength : Nat := r.length + if r.extended then 8 else 4

variable {r}

theorem entryLength_eq_size (h : r.extended = false) : r.entryLength = r.size := by
  simp [entryLength, size, headerSize, h, Nat.add_comm]

end Record

/-- The section holds these records and the terminator. -/
structure Holds (f : EhFrame) (records : List Record) : Prop where
  bytes : f.bytes = records.flatMap Record.encode ++ leBytes 4 0
  fits : ∀ r ∈ records, r.Fits

section Walk

variable (f : EhFrame) (fuel : Nat)

/-- The entries that the records from an offset on encode, behind those before them. An FDE
belongs to the CIE that starts its CIE pointer before the place of this pointer. -/
def encoded : List Record → Nat → List DwarfCIE → List DwarfFDE → Option (List DwarfCIE × List DwarfFDE)
  | [], _, cies, fdes => some (cies, fdes)
  | r :: rest, p, cies, fdes =>
    let idPlace := f.place (p + r.headerSize)
    let content : DwarfCursor := ⟨f.place p, f.place (p + r.headerSize + 4)⟩
    let length := BitVec.ofNat 64 r.length
    if r.ciePointer = 0 then do
      let cie ← (← parseCIE f fuel content (f.place (p + r.size)) length cies.length)
      encoded rest (p + r.size) (cies ++ [cie]) fdes
    else do
      let index ← cies.findIdx? (·.startAddress = idPlace - r.ciePointer.setWidth 64)
      let cie ← cies[index]?
      let fde ← readFDE f content length index (r.ciePointer.setWidth 64) cie.augmentation
      encoded rest (p + r.size) cies (fdes ++ [fde])

/-- The true starts of the records, and of the terminator. -/
def starts : List Record → Nat → List Address
  | [], p => [f.place p]
  | r :: rest, p => f.place p :: starts rest (p + r.size)

/-- The string of the CIE that an FDE points to is not empty. It stands behind the length,
the id and the version of the CIE. -/
def Augmented : List Record → Nat → Prop
  | [], _ => True
  | r :: rest, p =>
    (r.ciePointer ≠ 0 → f.read 1 (f.place (p + r.headerSize) - r.ciePointer.setWidth 64 + 9) ≠ some 0) ∧
      Augmented rest (p + r.size)

/-- The parser, from an offset on, ends with these entries after rounds at these places. -/
def ParsesTo (info : DwarfUnwindInfo) (p : Nat) (entries : List DwarfCIE × List DwarfFDE) (places : List Address) : Prop :=
  ∃ rounds info', parse f fuel rounds info (f.place p) = some (info', places) ∧ (info'.cieList, info'.fdeList) = entries

end Walk

/-! ## One round -/

section Round

variable {f : EhFrame} {fuel : Nat} {r : Record} {pre post : List UInt8}

theorem nextLength_record (hb : f.bytes = pre ++ (r.encode ++ post)) (hfit : r.Fits) :
    (nextLength f).run (.at (f.place pre.length)) = some
      ((BitVec.ofNat 64 r.length, BitVec.ofNat 64 r.entryLength),
        ⟨f.place pre.length, f.place (pre.length + r.headerSize)⟩) := by
  have hmapped := f.mapped
  rw [hb, List.length_append, List.length_append, r.length_encode] at hmapped
  simp only [Record.size] at hmapped
  cases hx : r.extended with
  | false =>
    have hlt := hfit hx
    have hb' : f.bytes = pre ++ (leBytes 4 r.length ++ (leBytes 4 r.ciePointer.toNat ++ r.body ++ post)) := by
      simp [hb, Record.encode, Record.header, hx]
    have hread := EhFrame.read_written hb' (by omega)
    have hne : BitVec.ofNat 64 r.length ≠ 0xffffffff := by
      intro h
      have ht := congrArg BitVec.toNat h
      rw [BitVec.toNat_ofNat, Nat.mod_eq_of_lt (by omega)] at ht
      simp at ht
      omega
    simp only [nextLength, StateT.run_bind, next_run, DwarfCursor.at, hread, Option.map_some, Option.bind_eq_bind,
      Option.bind_some, if_neg hne, EhFrame.place_add]
    simp [Record.entryLength, Record.headerSize, hx, BitVec.ofNat_add]
  | true =>
    have hb' : f.bytes = pre ++ (leBytes 4 0xffffffff ++
        (leBytes 8 r.length ++ (leBytes 4 r.ciePointer.toNat ++ r.body ++ post))) := by
      simp [hb, Record.encode, Record.header, hx]
    have hb'' : f.bytes = (pre ++ leBytes 4 0xffffffff) ++
        (leBytes 8 r.length ++ (leBytes 4 r.ciePointer.toNat ++ r.body ++ post)) := by
      simp only [hb', List.append_assoc]
    have hread := EhFrame.read_written hb' (by omega)
    have hread' := EhFrame.read_written hb'' (by omega)
    rw [List.length_append, length_leBytes] at hread'
    simp only [nextLength, StateT.run_bind, next_run, DwarfCursor.at, hread, Option.map_some,
      Option.bind_eq_bind, Option.bind_some, EhFrame.place_add]
    simp [next_run, hread', EhFrame.place_add, Record.entryLength, Record.headerSize, hx, BitVec.ofNat_add]

theorem nextID_record (hb : f.bytes = pre ++ (r.encode ++ post)) :
    (next f 4).run ⟨f.place pre.length, f.place (pre.length + r.headerSize)⟩ = some
      (r.ciePointer.setWidth 64, ⟨f.place pre.length, f.place (pre.length + r.headerSize + 4)⟩) := by
  have hb' : f.bytes = (pre ++ r.header) ++ (leBytes 4 r.ciePointer.toNat ++ (r.body ++ post)) := by
    simp only [hb, Record.encode, List.append_assoc]
  have hread := EhFrame.read_written hb' r.ciePointer.isLt
  rw [List.length_append, r.length_header] at hread
  rw [next_run, hread, Option.map_some, EhFrame.place_add, BitVec.ofNat_toNat]

/-- The length of a record is not that of the terminator. -/
theorem length_ne_zero (hb : f.bytes = pre ++ (r.encode ++ post)) : BitVec.ofNat 64 r.length ≠ 0 := by
  have hmapped := f.mapped
  rw [hb, List.length_append, List.length_append, r.length_encode] at hmapped
  simp only [Record.size, Record.length] at hmapped ⊢
  intro h
  have ht := congrArg BitVec.toNat h
  rw [BitVec.toNat_ofNat, Nat.mod_eq_of_lt (by omega)] at ht
  simp at ht

theorem place_lt_end (hb : f.bytes = pre ++ (r.encode ++ post)) : f.place pre.length < f.endAddress := by
  have hmapped := f.mapped
  have hlen := congrArg List.length hb
  rw [List.length_append, List.length_append, r.length_encode] at hlen
  have hpos : 0 < r.size := by simp only [Record.size, Record.length]; omega
  exact (EhFrame.place_lt_iff (by omega)).2 (by omega)

/-- A round of the loop on a record. -/
theorem parse_record (hb : f.bytes = pre ++ (r.encode ++ post)) (hfit : r.Fits) (rounds : Nat)
    (info : DwarfUnwindInfo) :
    parse f fuel (rounds + 1) info (f.place pre.length) = do
      let info ← parseEntry f fuel info ⟨f.place pre.length, f.place (pre.length + r.headerSize)⟩
        (f.place (pre.length + r.entryLength)) (BitVec.ofNat 64 r.length)
      let (info, places) ← parse f fuel rounds info (f.place (pre.length + r.entryLength))
      return (info, f.place pre.length :: places) := by
  rw [parse, if_pos (place_lt_end hb), nextLength_record hb hfit]
  simp only [Option.bind_eq_bind, Option.bind_some, if_neg (length_ne_zero hb), EhFrame.place_add]

theorem parse_terminator (hb : f.bytes = pre ++ leBytes 4 0) (rounds : Nat) (info : DwarfUnwindInfo) :
    parse f fuel (rounds + 1) info (f.place pre.length) = some (info, [f.place pre.length]) := by
  have hmapped := f.mapped
  have hlen := congrArg List.length hb
  rw [List.length_append, length_leBytes] at hlen
  have hread : f.read 4 (f.place pre.length) = some 0 :=
    EhFrame.read_written (hb.trans (by rw [List.append_nil])) (by decide)
  have hnext : (nextLength f).run (.at (f.place pre.length)) =
      some ((0, 4), ⟨f.place pre.length, f.place (pre.length + 4)⟩) := by
    simp [nextLength, next_run, DwarfCursor.at, hread, ← EhFrame.place_add]
  rw [parse, if_pos ((EhFrame.place_lt_iff (by omega)).2 (by omega)), hnext]
  rfl

/-- What a round has done when the parser returns. -/
theorem parse_inv {rounds : Nat} {info info' : DwarfUnwindInfo} {start : Address} {places : List Address}
    (hlt : start < f.endAddress) (h : parse f fuel rounds info start = some (info', places)) :
    ∃ length distance cursor tail, (nextLength f).run (.at start) = some ((length, distance), cursor) ∧
      places = start :: tail ∧ (length ≠ 0 → ∃ rounds' info1,
        parseEntry f fuel info cursor (start + distance) length = some info1 ∧
        parse f fuel rounds' info1 (start + distance) = some (info', tail)) := by
  cases rounds with
  | zero => cases h
  | succ rounds =>
    rw [parse, if_pos hlt] at h
    simp only [Option.bind_eq_bind, Option.bind_eq_some_iff] at h
    obtain ⟨⟨⟨length, distance⟩, cursor⟩, hnext, h⟩ := h
    by_cases hz : length = 0
    · rw [if_pos hz] at h
      cases h
      exact ⟨length, distance, cursor, [], hnext, rfl, fun hne => absurd hz hne⟩
    · rw [if_neg hz] at h
      simp only [Option.bind_eq_some_iff] at h
      obtain ⟨info1, hentry, ⟨last, tail⟩, hparse, h⟩ := h
      cases h
      exact ⟨length, distance, cursor, tail, hnext, rfl, fun _ => ⟨rounds, info1, hentry, hparse⟩⟩

/-- The first place is where the walk starts. -/
theorem head_of_parse {rounds : Nat} {info info' : DwarfUnwindInfo} {start a : Address} {places : List Address}
    (h : parse f fuel rounds info start = some (info', a :: places)) : a = start := by
  by_cases hlt : start < f.endAddress
  · obtain ⟨_, _, _, _, _, heq, _⟩ := parse_inv hlt h
    cases heq
    rfl
  · cases rounds with
    | zero => cases h
    | succ rounds =>
      rw [parse, if_neg hlt] at h
      cases h

end Round

/-! ## The string of a CIE -/

section String

variable {f : EhFrame} {fuel : Nat} {start cursor : DwarfCursor} {stop : Address} {length : BitVec 64}

theorem stringRounds_nil_iff {rounds : Nat} {string : List UInt8}
    (h : (stringRounds f rounds).run start = some (string, cursor)) :
    string = [] ↔ f.read 1 start.cursor = some 0 := by
  cases rounds with
  | zero => cases h
  | succ rounds =>
    simp only [stringRounds, StateT.run_bind, next_run, Option.bind_eq_bind, Option.bind_eq_some_iff,
      Option.map_eq_some_iff] at h
    obtain ⟨⟨byte, c⟩, ⟨value, hread, heq⟩, h⟩ := h
    cases heq
    rw [hread, Option.some_inj]
    by_cases hz : byte = 0
    · rw [if_pos hz] at h
      cases h
      exact iff_of_true rfl hz
    · rw [if_neg hz] at h
      simp only [StateT.run_bind, Option.bind_eq_bind, Option.bind_eq_some_iff] at h
      obtain ⟨⟨rest, c⟩, -, h⟩ := h
      cases h
      exact iff_of_false (List.cons_ne_nil _ _) hz

theorem parseAugmentation_none_iff {string : List UInt8} {augmentation : Option CIEAugmentation}
    (h : (parseAugmentation f string).run start = some (some augmentation, cursor)) :
    augmentation = none ↔ string = [] := by
  cases string with
  | nil =>
    cases h
    exact iff_of_true rfl rfl
  | cons first letters =>
    simp only [parseAugmentation] at h
    split at h
    · simp only [StateT.run_bind, Option.bind_eq_bind, Option.bind_eq_some_iff] at h
      obtain ⟨_, _, _, _, h⟩ := h
      cases h
      simp
    · cases h

/-- What an accepted CIE has taken from its place. -/
theorem parseCIE_spec {index : Nat} {cie : DwarfCIE}
    (h : parseCIE f fuel start stop length index = some (some cie)) :
    cie.startAddress = start.start ∧ cie.index = index ∧
      (cie.augmentation = none ↔ f.read 1 (start.cursor + 1) = some 0) := by
  simp only [parseCIE, Option.bind_eq_bind, Option.bind_eq_some_iff] at h
  obtain ⟨⟨fields, c⟩, hf, h⟩ := h
  cases fields with
  | none => cases h
  | some fields =>
    obtain ⟨header, retAddressReg⟩ := fields
    simp only [Option.bind_eq_some_iff] at h
    obtain ⟨state, -, h⟩ := h
    cases h
    refine ⟨rfl, rfl, ?_⟩
    simp only [parseCIEFields, StateT.run_bind, next_run, Option.bind_eq_bind, Option.bind_eq_some_iff,
      Option.map_eq_some_iff] at hf
    obtain ⟨⟨version, c⟩, ⟨value, -, heq⟩, hf⟩ := hf
    cases heq
    split at hf
    · cases hf
    · simp only [StateT.run_bind, Option.bind_eq_bind, Option.bind_eq_some_iff] at hf
      obtain ⟨⟨string, c⟩, hstring, _, _, _, _, _, _, ⟨augmentation, c⟩, ha, hf⟩ := hf
      cases augmentation with
      | none => cases hf
      | some augmentation =>
        cases hf
        rw [parseAugmentation_none_iff ha, stringRounds_nil_iff hstring]
        rfl

end String

/-! ## The whole walk -/

/-- The entries so far come from before the offset, and the map finds each of them. -/
structure Consistent (f : EhFrame) (info : DwarfUnwindInfo) (p : Nat) : Prop where
  map : ∀ a, info.cieMap a = info.cieList.findIdx? (·.startAddress = a)
  before : ∀ cie ∈ info.cieList, ∃ q < p, cie.startAddress = f.place q
  string : ∀ cie ∈ info.cieList, cie.augmentation = none ↔ f.read 1 (cie.startAddress + 9) = some 0

section Run

variable {f : EhFrame} {fuel : Nat} {r : Record} {pre post : List UInt8} {info info' : DwarfUnwindInfo}
  {entries : List DwarfCIE × List DwarfFDE} {places : List Address}

theorem Consistent.mono {p q : Nat} (h : Consistent f info p) (hpq : p ≤ q) : Consistent f info q :=
  ⟨h.map, fun cie hc => (h.before cie hc).imp fun _ hq => ⟨hq.1.trans_le hpq, hq.2⟩, h.string⟩

/-- A CIE with a short length, accepted at the offset, joins the others. -/
theorem Consistent.addCIE {p q : Nat} {stop : Address} {length : BitVec 64} {cie : DwarfCIE}
    (h : Consistent f info p) (hp : f.readAddress.toNat + p < 2 ^ 64) (hpq : p < q)
    (hc : parseCIE f fuel ⟨f.place p, f.place (p + 4 + 4)⟩ stop length info.cieList.length = some (some cie))
    (hadd : info.addCIE (some cie) = some info') : Consistent f info' q := by
  obtain ⟨hstart, hindex, hstring⟩ := parseCIE_spec hc
  cases hadd
  simp only at hstart
  -- no earlier entry starts here, so the new one is the only one that its address finds
  have hnew : ∀ c ∈ info.cieList, c.startAddress ≠ cie.startAddress := by
    intro c hmem heq
    obtain ⟨k, hk, hck⟩ := h.before c hmem
    rw [heq, hstart] at hck
    exact absurd (EhFrame.place_inj hp (by omega) hck) (by omega)
  refine ⟨fun a => ?_, fun c hmem => ?_, fun c hmem => ?_⟩
  · dsimp only
    rw [List.findIdx?_append]
    by_cases ha : a = cie.startAddress
    · have hnone : info.cieList.findIdx? (·.startAddress = a) = none := by
        rw [List.findIdx?_eq_none_iff]
        intro c hmem
        simpa [ha] using hnew c hmem
      rw [hnone, ha, Function.update_self, hindex]
      simp
    · rw [Function.update_of_ne ha, h.map]
      simp [Ne.symm ha]
  · rcases List.mem_append.1 hmem with hmem | hmem
    · exact (h.before c hmem).imp fun _ hq => ⟨hq.1.trans hpq, hq.2⟩
    · rw [List.mem_singleton.1 hmem]
      exact ⟨p, hpq, hstart⟩
  · rcases List.mem_append.1 hmem with hmem | hmem
    · exact h.string c hmem
    · rw [List.mem_singleton.1 hmem, hstring, hstart]
      have h1 : f.place (p + 4 + 4) + 1 = f.place (p + 9) := EhFrame.place_add
      have h9 : f.place p + 9 = f.place (p + 9) := EhFrame.place_add
      rw [h1, h9]

theorem parseEntry_cie {stop : Address} {length : BitVec 64} (hb : f.bytes = pre ++ (r.encode ++ post))
    (hid : r.ciePointer = 0) :
    parseEntry f fuel info ⟨f.place pre.length, f.place (pre.length + r.headerSize)⟩ stop length =
      (parseCIE f fuel ⟨f.place pre.length, f.place (pre.length + r.headerSize + 4)⟩ stop length
        info.cieList.length).bind info.addCIE := by
  simp only [parseEntry, nextID_record hb, Option.bind_eq_bind, Option.bind_some, hid]
  rfl

theorem parseEntry_fde {stop : Address} {length : BitVec 64} {index : Nat} (hb : f.bytes = pre ++ (r.encode ++ post))
    (hid : r.ciePointer ≠ 0)
    (hfind : info.findCIE (f.place (pre.length + r.headerSize) - r.ciePointer.setWidth 64) = some index) :
    parseEntry f fuel info ⟨f.place pre.length, f.place (pre.length + r.headerSize)⟩ stop length =
      (parseFDE f info ⟨f.place pre.length, f.place (pre.length + r.headerSize + 4)⟩ length index
        (r.ciePointer.setWidth 64)).map info.addFDE := by
  have hne : r.ciePointer.setWidth 64 ≠ 0 := by
    intro h
    apply hid
    have ht := congrArg BitVec.toNat h
    have hlt := r.ciePointer.isLt
    rw [BitVec.toNat_setWidth, Nat.mod_eq_of_lt (by omega)] at ht
    exact BitVec.eq_of_toNat_eq ht
  simp only [parseEntry, nextID_record hb, Option.bind_eq_bind, Option.bind_some, if_neg hne, hfind]
  cases parseFDE f info _ length index _ <;> rfl

theorem parsesTo_record (hb : f.bytes = pre ++ (r.encode ++ post)) (hfit : r.Fits)
    (hentry : parseEntry f fuel info ⟨f.place pre.length, f.place (pre.length + r.headerSize)⟩
      (f.place (pre.length + r.entryLength)) (BitVec.ofNat 64 r.length) = some info') :
    ParsesTo f fuel info pre.length entries (f.place pre.length :: places) ↔
      ParsesTo f fuel info' (pre.length + r.entryLength) entries places := by
  constructor
  · rintro ⟨rounds, last, h, heq⟩
    cases rounds with
    | zero => cases h
    | succ rounds =>
      rw [parse_record hb hfit, hentry] at h
      simp only [Option.bind_eq_bind, Option.bind_some, Option.bind_eq_some_iff] at h
      obtain ⟨⟨last', tail⟩, h, hlast⟩ := h
      cases hlast
      exact ⟨rounds, last', h, heq⟩
  · rintro ⟨rounds, last, h, heq⟩
    refine ⟨rounds + 1, last, ?_, heq⟩
    rw [parse_record hb hfit, hentry]
    simp only [Option.bind_eq_bind, Option.bind_some, h]
    rfl

theorem not_parsesTo_of_entry (hb : f.bytes = pre ++ (r.encode ++ post)) (hfit : r.Fits)
    (hentry : parseEntry f fuel info ⟨f.place pre.length, f.place (pre.length + r.headerSize)⟩
      (f.place (pre.length + r.entryLength)) (BitVec.ofNat 64 r.length) = none) :
    ¬ ParsesTo f fuel info pre.length entries places := by
  rintro ⟨rounds, last, h, heq⟩
  cases rounds with
  | zero => cases h
  | succ rounds =>
    rw [parse_record hb hfit, hentry] at h
    cases h

/-- After an extended record the walk goes on four bytes before its end. -/
theorem not_parsesTo_of_extended (hb : f.bytes = pre ++ (r.encode ++ post)) (hfit : r.Fits) (hx : r.extended = true)
    {tail : List Address} (htail : places = f.place pre.length :: f.place (pre.length + r.size) :: tail) :
    ¬ ParsesTo f fuel info pre.length entries places := by
  intro h
  cases he : parseEntry f fuel info ⟨f.place pre.length, f.place (pre.length + r.headerSize)⟩
      (f.place (pre.length + r.entryLength)) (BitVec.ofNat 64 r.length) with
  | none => exact not_parsesTo_of_entry hb hfit he h
  | some info1 =>
    rw [htail, parsesTo_record hb hfit he] at h
    obtain ⟨rounds, last, h, -⟩ := h
    have hmapped := f.mapped
    rw [hb, List.length_append, List.length_append, r.length_encode] at hmapped
    have hsize : r.size = r.entryLength + 4 := by
      simp only [Record.size, Record.headerSize, Record.entryLength, hx, if_true]
      omega
    exact absurd (EhFrame.place_inj (by omega) (by omega) (head_of_parse h)) (by omega)

theorem starts_eq_cons (f : EhFrame) (records : List Record) (p : Nat) :
    ∃ tail, starts f records p = f.place p :: tail := by
  cases records with
  | nil => exact ⟨[], rfl⟩
  | cons r rest => exact ⟨_, rfl⟩

/-- The entry that an FDE is linked to starts where its CIE pointer says. -/
theorem startAddress_of_findIdx {cies : List DwarfCIE} {a : Address} {index : Nat} {cie : DwarfCIE}
    (hindex : cies.findIdx? (·.startAddress = a) = some index) (hcie : cies[index]? = some cie) :
    cie.startAddress = a := by
  obtain ⟨hlt, hp, -⟩ := List.findIdx?_eq_some_iff_getElem.1 hindex
  rw [List.getElem?_eq_getElem hlt, Option.some_inj] at hcie
  rw [← hcie]
  exact of_decide_eq_true hp

theorem parseFDE_eq {start : DwarfCursor} {length entryID : BitVec 64} {index : Nat} {cie : DwarfCIE}
    (hcie : info.cieList[index]? = some cie) :
    parseFDE f info start length index entryID = cie.augmentation.bind fun augmentation =>
      readFDE f start length index entryID (some augmentation) := by
  simp only [parseFDE, DwarfUnwindInfo.getCIE, hcie, Option.bind_eq_bind, Option.bind_some]

/-- What the walk from an offset on depends on. -/
def WalkIff (f : EhFrame) (fuel : Nat) (records : List Record) (p : Nat) : Prop :=
  ∀ info entries, Consistent f info p → encoded f fuel records p info.cieList info.fdeList = some entries →
    (ParsesTo f fuel info p entries (starts f records p) ↔
      (∀ r ∈ records, r.extended = false) ∧ Augmented f records p)

variable {rest : List Record}

theorem walkIff_cie (hb : f.bytes = pre ++ (r.encode ++ post)) (hfit : r.Fits) (hx : r.extended = false)
    (hid : r.ciePointer = 0) (hrest : WalkIff f fuel rest (pre.length + r.size)) :
    WalkIff f fuel (r :: rest) pre.length := by
  intro info entries hinfo he
  have hmapped := f.mapped
  rw [hb, List.length_append, List.length_append, r.length_encode] at hmapped
  have hpos : 0 < r.size := by simp only [Record.size, Record.length]; omega
  have hheader : r.headerSize = 4 := by simp [Record.headerSize, hx]
  have hend := Record.entryLength_eq_size hx
  simp only [encoded, hid, if_true, Option.bind_eq_bind, Option.bind_eq_some_iff] at he
  obtain ⟨cie?, hcie, cie, rfl, he⟩ := he
  have hadd : info.addCIE (some cie) = some _ := rfl
  have hentry : parseEntry f fuel info ⟨f.place pre.length, f.place (pre.length + r.headerSize)⟩
      (f.place (pre.length + r.entryLength)) (BitVec.ofNat 64 r.length) = _ := parseEntry_cie hb hid
  rw [hend, hcie, Option.bind_some, hadd, ← hend] at hentry
  rw [hheader] at hcie
  have hinfo' := hinfo.addCIE (by omega) (Nat.lt_add_of_pos_right hpos) hcie hadd
  rw [starts, parsesTo_record hb hfit hentry, hend, hrest _ _ hinfo' he]
  simp [hid, hx, Augmented]

theorem walkIff_fde (hb : f.bytes = pre ++ (r.encode ++ post)) (hfit : r.Fits) (hx : r.extended = false)
    (hid : r.ciePointer ≠ 0) (hrest : WalkIff f fuel rest (pre.length + r.size)) :
    WalkIff f fuel (r :: rest) pre.length := by
  intro info entries hinfo he
  simp only [encoded, if_neg hid, Option.bind_eq_bind, Option.bind_eq_some_iff] at he
  obtain ⟨index, hindex, cie, hcie, fde, hfde, he⟩ := he
  have hend := Record.entryLength_eq_size hx
  have hstring := hinfo.string cie (List.mem_of_getElem? hcie)
  rw [startAddress_of_findIdx hindex hcie] at hstring
  have hentry : parseEntry f fuel info ⟨f.place pre.length, f.place (pre.length + r.headerSize)⟩
      (f.place (pre.length + r.entryLength)) (BitVec.ofNat 64 r.length) = _ :=
    parseEntry_fde hb hid ((hinfo.map _).trans hindex)
  rw [parseFDE_eq hcie] at hentry
  -- the pointer of the CIE decides whether this FDE can be read at all
  cases haug : cie.augmentation with
  | none =>
    rw [haug] at hentry
    refine iff_of_false (not_parsesTo_of_entry hb hfit hentry) ?_
    rintro ⟨-, hne, -⟩
    exact hne hid (hstring.1 haug)
  | some augmentation =>
    rw [haug] at hentry hfde
    rw [Option.bind_some, hfde, Option.map_some] at hentry
    have hinfo' : Consistent f (info.addFDE fde) (pre.length + r.size) :=
      ⟨hinfo.map, (hinfo.mono (Nat.le_add_right _ _)).before, hinfo.string⟩
    have hne : f.read 1 (f.place (pre.length + r.headerSize) - r.ciePointer.setWidth 64 + 9) ≠ some 0 := by
      rw [Ne, ← hstring, haug]
      exact Option.some_ne_none augmentation
    rw [starts, parsesTo_record hb hfit hentry, hend, hrest _ _ hinfo' he, List.forall_mem_cons, Augmented]
    exact and_congr (and_iff_right hx).symm (and_iff_right fun _ => hne).symm

/-- The induction is over the records that are left. -/
theorem walkIff (records : List Record) (pre : List UInt8)
    (hb : f.bytes = pre ++ (records.flatMap Record.encode ++ leBytes 4 0)) (hfits : ∀ r ∈ records, r.Fits) :
    WalkIff f fuel records pre.length := by
  induction records generalizing pre with
  | nil =>
    intro info entries hinfo he
    simp only [encoded, Option.some.injEq] at he
    exact iff_of_true ⟨1, info, parse_terminator hb 0 info, he⟩ ⟨by simp, trivial⟩
  | cons r rest ih =>
    have hfit := hfits r List.mem_cons_self
    have hrest := ih (pre ++ r.encode) (by rw [hb, List.flatMap_cons, List.append_assoc, List.append_assoc])
      fun r' hr => hfits r' (List.mem_cons_of_mem _ hr)
    rw [List.length_append, r.length_encode] at hrest
    rw [List.flatMap_cons, List.append_assoc] at hb
    cases hx : r.extended with
    | true =>
      intro info entries hinfo he
      obtain ⟨tail, htail⟩ := starts_eq_cons f rest (pre.length + r.size)
      refine iff_of_false (not_parsesTo_of_extended hb hfit hx (by rw [starts, htail])) ?_
      intro h
      simp [hx] at h
    | false =>
      by_cases hid : r.ciePointer = 0
      · exact walkIff_cie hb hfit hx hid hrest
      · exact walkIff_fde hb hfit hx hid hrest

end Run

/-- A CIE with the augmentation `zR`, and an FDE that points to it. -/
def sampleRecords (extended : Bool) : List Record :=
  [⟨extended, 0, [1, 0x7a, 0x52, 0, 1, 0x78, 0x10, 1, 0x1b, 0x0c, 7, 8, 0x90, 1, 0, 0]⟩,
    ⟨false, if extended then 0x24 else 0x1c, [0, 0, 0, 0, 8, 0, 0, 0, 0, 0, 0, 0]⟩]

def sampleFrame (extended : Bool) : EhFrame where
  readAddress := 0x7f0000001000
  virtualAddress := 0x2000
  bytes := (sampleRecords extended).flatMap Record.encode ++ leBytes 4 0
  mapped := by cases extended <;> decide

theorem sampleFrame_holds (extended : Bool) : Holds (sampleFrame extended) (sampleRecords extended) :=
  ⟨rfl, by cases extended <;> simp [sampleRecords, Record.Fits, Record.length]⟩

end Egalito.Dwarf
