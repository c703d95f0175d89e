import Egalito.Lib.Run
import Egalito.Lib.Stream
/-!
# RELR relocations

`RelocList::buildRelocList` on a `SHT_RELR` section, with the section addresses
that `ElfMap` gives it. The file is its mapping into memory; `none` is an access
outside of it, or through a pointer that was never set.
-/

open Egalito.Lib

namespace Egalito.Elf

/-! ## Sections -/

/-- What is used of a section header: `alloc` is `SHF_ALLOC`, `noBits` is `SHT_NOBITS`. -/
structure Shdr where
  name : String
  alloc : Bool
  noBits : Bool
  addr : UInt64
  offset : UInt64
  size : UInt64
deriving DecidableEq, Repr

structure ElfMap where
  map : UInt64 → Option UInt8
  headers : List Shdr
  isObjectFile : Bool

/-- The read address is an offset into the map. -/
structure ElfSection where
  shdr : Shdr
  virtualAddress : UInt64
  readAddress : Option UInt64
deriving DecidableEq, Repr

/-- `sectionMap` keeps the last section of each name, and only the sections in it get their addresses. -/
def mapSections : List Shdr → List ElfSection
  | [] => []
  | h :: hs =>
    (if hs.any (·.name = h.name) then ⟨h, 0, none⟩ else ⟨h, h.addr, some h.offset⟩) :: mapSections hs

def findMapped (sections : List ElfSection) (name : String) : Option ElfSection :=
  sections.find? fun sec => sec.readAddress.isSome && sec.shdr.name = name

def setVirtualAddress (sections : List ElfSection) (name : String) (address : UInt64) : List ElfSection :=
  sections.map fun sec =>
    if sec.readAddress.isSome && sec.shdr.name = name then { sec with virtualAddress := address } else sec

/-- An object file must have the three sections that are placed by hand. -/
def makeVirtualAddresses (elf : ElfMap) : Option (List ElfSection) := do
  let sections := mapSections elf.headers
  if elf.isObjectFile then
    let data ← findMapped sections ".data"
    let bss ← findMapped sections ".bss"
    let _ ← findMapped sections ".rodata"
    return setVirtualAddress (setVirtualAddress (setVirtualAddress sections
      ".data" 0x20000) ".bss" (0x20000 + data.shdr.size)) ".rodata" (0x20000 + data.shdr.size + bss.shdr.size)
  else return sections

/-- The eight bytes at an offset into the map. -/
def bytesAt (elf : ElfMap) (offset : UInt64) : Option (List UInt8) :=
  (List.range 8).mapM fun i => elf.map (offset + UInt64.ofNat i)

def ElfSection.convertVAToOffset (sec : ElfSection) (va : UInt64) : UInt64 := va - sec.virtualAddress

def ElfSection.dataAt (elf : ElfMap) (sec : ElfSection) (va : UInt64) : Option (List UInt8) := do
  bytesAt elf ((← sec.readAddress) + sec.convertVAToOffset va)

/-! ## Relocations -/

def R_X86_64_RELATIVE : UInt32 := 8

structure Reloc where
  address : UInt64
  type : UInt32
  symbolIndex : UInt32
  addend : UInt64
deriving DecidableEq, Repr

/-- Both loops put byte `i` at bit `8 * i`; the big-endian one only goes the other way round. -/
def readAddend (isLittleEndian : Bool) (data : List UInt8) : UInt64 :=
  (if isLittleEndian then List.range 8 else (List.range 8).reverse).foldl
    (fun result i => result ||| (data[i]?.getD 0).toUInt64 <<< UInt64.ofNat (8 * i)) 0

/-- The section is taken with the address behind its end. -/
def ElfSection.covers (address : UInt64) (sec : ElfSection) : Bool :=
  sec.virtualAddress ≤ address && address ≤ sec.virtualAddress + sec.shdr.size

section Build

variable (elf : ElfMap) (isLittleEndian : Bool) (allSections : List ElfSection)

def makeReloc (address : UInt64) (sec : ElfSection) : Option Reloc := do
  let data ← sec.dataAt elf address
  return ⟨address, R_X86_64_RELATIVE, 0, readAddend isLittleEndian data⟩

/-- The loop over all sections, for one address. -/
def relocsAt (address : UInt64) : Option (List Reloc) :=
  (allSections.filter (·.covers address)).mapM (makeReloc elf isLittleEndian address)

/-- The addresses of a bitmap, from `next` on. -/
def bitmapAddresses (next entry : UInt64) : List UInt64 :=
  ((List.range 63).filter fun i => entry >>> UInt64.ofNat (i + 1) &&& 1 ≠ 0).map fun i => next + 8 * UInt64.ofNat i

/-- The loop over the entries. `next` moves to an address entry only where a section takes it. -/
def buildRelr : UInt64 → List UInt64 → Option (List Reloc)
  | _, [] => some []
  | next, entry :: entries =>
    if entry &&& 1 = 0 then do
      let relocs ← relocsAt elf isLittleEndian allSections entry
      let next := if allSections.any (·.covers entry) then entry + 8 else next
      return relocs ++ (← buildRelr next entries)
    else do
      let relocs ← (bitmapAddresses next entry).mapM (relocsAt elf isLittleEndian allSections)
      return relocs.flatten ++ (← buildRelr (next + 8 * 63) entries)

end Build

/-- What `buildRelocList` adds for a RELR section with these entries. -/
def buildRelocList (elf : ElfMap) (isLittleEndian : Bool) (entries : List UInt64) : Option (List Reloc) := do
  buildRelr elf isLittleEndian (← makeVirtualAddresses elf) 0 entries

/-! ## What the format says -/

/-- An even entry is an address. An odd one is a bitmap of the 63 words from `base` on, where
the entry before it has ended. -/
def encodedFrom : UInt64 → List UInt64 → List UInt64
  | _, [] => []
  | base, entry :: entries =>
    if entry &&& 1 = 0 then entry :: encodedFrom (entry + 8) entries
    else bitmapAddresses base entry ++ encodedFrom (base + 8 * 63) entries

def encoded (entries : List UInt64) : List UInt64 := encodedFrom 0 entries

def Shdr.contains (h : Shdr) (address : UInt64) : Bool :=
  h.addr.toNat ≤ address.toNat && address.toNat < h.addr.toNat + h.size.toNat

/-- The bytes of the allocated section that the address lies in. -/
def storedBytes (elf : ElfMap) (address : UInt64) : Option (List UInt8) := do
  let h ← elf.headers.find? fun h => h.alloc && h.contains address
  if h.noBits then return List.replicate 8 0 else bytesAt elf (h.offset + (address - h.addr))

/-- One relocation for each address, with the word stored there, and no other. -/
def RelrExact (elf : ElfMap) (isLittleEndian : Bool) (entries : List UInt64) : Prop :=
  ∃ relocs, buildRelocList elf isLittleEndian entries = some relocs ∧
    List.Forall₂ (fun address reloc => reloc.address = address ∧ reloc.type = R_X86_64_RELATIVE ∧
      reloc.symbolIndex = 0 ∧ ∃ bytes, storedBytes elf address = some bytes ∧
        reloc.addend = UInt64.ofNat (leNat bytes)) (encoded entries) relocs

/-- Each address lies in exactly one allocated section. -/
def InOneSection (elf : ElfMap) (entries : List UInt64) : Prop :=
  ∀ address ∈ encoded entries, (elf.headers.filter fun h => h.alloc && h.contains address).length = 1

/-- For each address exactly one section has it, the address behind its end counted in, and the
section's data there is what is stored at the address. -/
def ReadFromOne (elf : ElfMap) (entries : List UInt64) : Prop :=
  ∃ sections, makeVirtualAddresses elf = some sections ∧ ∀ address ∈ encoded entries, ∃ sec bytes,
    sections.filter (·.covers address) = [sec] ∧ sec.dataAt elf address = some bytes ∧
      storedBytes elf address = some bytes

/-! ## The addend -/

theorem foldl_or_bytes {data : List UInt8} {k : Nat} (hk : k ≤ 8) (hdata : data.length = 8) :
    ((List.range k).foldl (fun result i =>
      result ||| (data[i]?.getD 0).toUInt64 <<< UInt64.ofNat (8 * i)) 0).toNat = leNat (data.take k) := by
  induction k with
  | zero => rfl
  | succ k ih =>
    have hlt : k < data.length := by omega
    have hlow : leNat (data.take k) < 2 ^ (8 * k) := by
      have h := leNat_lt (data.take k)
      rw [List.length_take, Nat.min_eq_left (by omega)] at h
      rwa [pow_mul]
    have hb : data[k].toNat * 2 ^ (8 * k) < 2 ^ 64 := by
      have hbyte : data[k].toNat < 2 ^ 8 := data[k].toNat_lt
      have hpow : 2 ^ 8 * 2 ^ (8 * k) ≤ 2 ^ 64 := by
        rw [← pow_add]
        exact Nat.pow_le_pow_right (by decide) (by omega)
      exact (Nat.mul_lt_mul_of_pos_right hbyte (by positivity)).trans_le hpow
    have hshift : (data[k].toUInt64 <<< UInt64.ofNat (8 * k)).toNat = 2 ^ (8 * k) * data[k].toNat := by
      have hk64 : 8 * k % 64 = 8 * k := Nat.mod_eq_of_lt (by omega)
      rw [UInt64.toNat_shiftLeft, UInt64.toNat_ofNat_of_lt' (by simp [UInt64.size]; omega), hk64,
        Nat.shiftLeft_eq, UInt8.toNat_toUInt64, Nat.mod_eq_of_lt hb, Nat.mul_comm]
    rw [List.range_succ, List.foldl_append, List.foldl_cons, List.foldl_nil, UInt64.toNat_or, ih (by omega),
      List.getElem?_eq_getElem hlt, Option.getD_some, hshift, List.take_succ_eq_append_getElem hlt, leNat_append,
      Nat.or_comm, ← Nat.two_pow_add_eq_or_of_lt hlow]
    rw [List.length_take, Nat.min_eq_left (by omega), pow_mul]
    simp [leNat, Nat.add_comm]

/-- The word is little-endian in either branch. -/
theorem readAddend_eq {data : List UInt8} (hdata : data.length = 8) (isLittleEndian : Bool) :
    readAddend isLittleEndian data = UInt64.ofNat (leNat data) := by
  have hle : readAddend true data = UInt64.ofNat (leNat data) := by
    have h := foldl_or_bytes (Nat.le_refl 8) hdata
    rw [List.take_of_length_le (by omega)] at h
    rw [← h, UInt64.ofNat_toNat]
    rfl
  cases isLittleEndian with
  | true => exact hle
  | false =>
    rw [← hle]
    refine (List.reverse_perm _).foldl_eq' (fun i _ j _ r => ?_) 0
    rw [UInt64.or_assoc, UInt64.or_assoc, UInt64.or_comm (_ <<< _)]

/-! ## One address -/

section Build

variable {elf : ElfMap} {isLittleEndian : Bool} {allSections : List ElfSection}

theorem length_bytesAt {offset : UInt64} {bytes : List UInt8} (h : bytesAt elf offset = some bytes) :
    bytes.length = 8 := by
  have hlen := (mapM_eq_some_iff.1 h).length_eq
  simpa using hlen.symm

theorem length_dataAt {sec : ElfSection} {va : UInt64} {bytes : List UInt8} (h : sec.dataAt elf va = some bytes) :
    bytes.length = 8 := by
  obtain ⟨readAddress, -, h⟩ := Option.bind_eq_some_iff.1 h
  exact length_bytesAt h

theorem length_storedBytes {address : UInt64} {bytes : List UInt8} (h : storedBytes elf address = some bytes) :
    bytes.length = 8 := by
  obtain ⟨shdr, -, h⟩ := Option.bind_eq_some_iff.1 h
  split_ifs at h
  · cases h
    rfl
  · exact length_bytesAt h

theorem makeReloc_eq_some_iff {address : UInt64} {sec : ElfSection} {r : Reloc} :
    makeReloc elf isLittleEndian address sec = some r ↔ ∃ bytes, sec.dataAt elf address = some bytes ∧
      r = ⟨address, R_X86_64_RELATIVE, 0, UInt64.ofNat (leNat bytes)⟩ := by
  rw [makeReloc, Option.bind_eq_bind, Option.bind_eq_some_iff]
  refine exists_congr fun bytes => and_congr_right fun h => ?_
  rw [readAddend_eq (length_dataAt h), Option.pure_def, Option.some.injEq, eq_comm]

/-- As many relocations as sections, all of them for this address. -/
theorem relocsAt_spec {address : UInt64} {relocs : List Reloc}
    (h : relocsAt elf isLittleEndian allSections address = some relocs) :
    relocs.length = (allSections.filter (·.covers address)).length ∧ ∀ r ∈ relocs, r.address = address := by
  have hall := mapM_eq_some_iff.1 h
  refine ⟨hall.length_eq.symm, fun r hr => ?_⟩
  obtain ⟨sec, -, hsec⟩ := exists_left_of_forall₂ hall r hr
  obtain ⟨bytes, -, rfl⟩ := makeReloc_eq_some_iff.1 hsec
  rfl

theorem covered_of_mem_relocsAt {address : UInt64} {relocs : List Reloc}
    (h : relocsAt elf isLittleEndian allSections address = some relocs) :
    ∀ r ∈ relocs, allSections.any (·.covers r.address) = true := by
  intro r hr
  obtain ⟨sec, hsec, hmake⟩ := exists_left_of_forall₂ (mapM_eq_some_iff.1 h) r hr
  obtain ⟨bytes, -, rfl⟩ := makeReloc_eq_some_iff.1 hmake
  rw [List.mem_filter] at hsec
  exact List.any_eq_true.2 ⟨sec, hsec⟩

/-- One relocation, from the one section that has the address. -/
theorem relocsAt_eq_singleton_iff {address : UInt64} {r : Reloc} :
    relocsAt elf isLittleEndian allSections address = some [r] ↔ ∃ sec bytes,
      allSections.filter (·.covers address) = [sec] ∧ sec.dataAt elf address = some bytes ∧
        r = ⟨address, R_X86_64_RELATIVE, 0, UInt64.ofNat (leNat bytes)⟩ := by
  rw [relocsAt, mapM_eq_some_iff, List.forall₂_cons_right_iff]
  constructor
  · rintro ⟨sec, _, hmake, hnil, hsec⟩
    rw [List.forall₂_nil_right_iff.1 hnil] at hsec
    obtain ⟨bytes, hbytes, rfl⟩ := makeReloc_eq_some_iff.1 hmake
    exact ⟨sec, bytes, hsec, hbytes, rfl⟩
  · rintro ⟨sec, bytes, hsec, hbytes, rfl⟩
    exact ⟨sec, [], makeReloc_eq_some_iff.2 ⟨bytes, hbytes, rfl⟩, .nil, hsec⟩

theorem eq_of_ofNat_leNat {bs cs : List UInt8} (hbs : bs.length = 8) (hcs : cs.length = 8)
    (h : UInt64.ofNat (leNat bs) = UInt64.ofNat (leNat cs)) : bs = cs := by
  have hb := leNat_lt bs
  have hc := leNat_lt cs
  rw [hbs] at hb
  rw [hcs] at hc
  have hnat : leNat bs = leNat cs := by
    have := congrArg UInt64.toNat h
    rwa [UInt64.toNat_ofNat_of_lt' hb, UInt64.toNat_ofNat_of_lt' hc] at this
  rw [← leBytes_leNat bs, ← leBytes_leNat cs, hbs, hcs, hnat]

/-! ## All entries -/

/-- A relocation is only made at an address that some section has. -/
theorem covered_of_mem_buildRelr {next : UInt64} {entries : List UInt64} {relocs : List Reloc}
    (h : buildRelr elf isLittleEndian allSections next entries = some relocs) :
    ∀ r ∈ relocs, allSections.any (·.covers r.address) = true := by
  induction entries generalizing next relocs with
  | nil =>
    cases h
    exact fun _ h => nomatch h
  | cons entry entries ih =>
    rw [buildRelr] at h
    by_cases heven : entry &&& 1 = 0
    · rw [if_pos heven] at h
      simp only [Option.bind_eq_bind, Option.bind_eq_some_iff, Option.pure_def, Option.some.injEq] at h
      obtain ⟨here, hhere, rest, hrest, rfl⟩ := h
      intro r hr
      rcases List.mem_append.1 hr with hr | hr
      · exact covered_of_mem_relocsAt hhere r hr
      · exact ih hrest r hr
    · rw [if_neg heven] at h
      simp only [Option.bind_eq_bind, Option.bind_eq_some_iff, Option.pure_def, Option.some.injEq] at h
      obtain ⟨here, hhere, rest, hrest, rfl⟩ := h
      intro r hr
      rcases List.mem_append.1 hr with hr | hr
      · obtain ⟨rs, hrs, hr⟩ := List.mem_flatten.1 hr
        obtain ⟨address, -, haddress⟩ := exists_left_of_forall₂ (mapM_eq_some_iff.1 hhere) rs hrs
        exact covered_of_mem_relocsAt haddress r hr
      · exact ih hrest r hr

/-- Where every address is taken by some section, the running position is that of the format. -/
theorem buildRelr_eq {base : UInt64} {entries : List UInt64}
    (h : ∀ address ∈ encodedFrom base entries, allSections.any (·.covers address) = true) :
    buildRelr elf isLittleEndian allSections base entries =
      ((encodedFrom base entries).mapM (relocsAt elf isLittleEndian allSections)).map List.flatten := by
  induction entries generalizing base with
  | nil => rfl
  | cons entry entries ih =>
    rw [buildRelr, encodedFrom]
    rw [encodedFrom] at h
    by_cases heven : entry &&& 1 = 0
    · rw [if_pos heven] at h ⊢
      have hentry := h entry List.mem_cons_self
      rw [if_pos heven, if_pos hentry]
      dsimp only
      rw [ih fun a ha => h a (List.mem_cons_of_mem _ ha), List.mapM_cons]
      cases relocsAt elf isLittleEndian allSections entry with
      | none => rfl
      | some here =>
        cases (encodedFrom (entry + 8) entries).mapM (relocsAt elf isLittleEndian allSections) <;> rfl
    · rw [if_neg heven] at h ⊢
      rw [if_neg heven, ih fun a ha => h a (List.mem_append_right _ ha), List.mapM_append]
      cases (bitmapAddresses base entry).mapM (relocsAt elf isLittleEndian allSections) with
      | none => rfl
      | some here =>
        cases (encodedFrom (base + 8 * 63) entries).mapM (relocsAt elf isLittleEndian allSections) with
        | none => rfl
        | some rest => simp

/-- Lists that are not empty, and together one element for each address: each has that one. -/
theorem forall₂_flatten {α β : Type} {R : α → β → Prop} {l : List α} {bs : List (List β)} (hlen : bs.length = l.length)
    (hne : ∀ b ∈ bs, b ≠ []) (h : List.Forall₂ R l bs.flatten) :
    List.Forall₂ (fun a b => ∃ x, b = [x] ∧ R a x) l bs := by
  induction l generalizing bs with
  | nil =>
    cases bs with
    | nil => exact .nil
    | cons b bs => cases hlen
  | cons a l ih =>
    cases bs with
    | nil => cases hlen
    | cons b bs =>
      obtain ⟨x, xs, rfl⟩ := List.exists_cons_of_ne_nil (hne b List.mem_cons_self)
      rw [List.flatten_cons, List.cons_append] at h
      obtain ⟨hx, h⟩ := List.forall₂_cons.1 h
      have hxs : xs = [] := by
        have hsum : bs.length ≤ bs.flatten.length := by
          rw [List.length_flatten]
          have hone : ∀ n ∈ bs.map List.length, 1 ≤ n := by
            intro n hn
            obtain ⟨c, hc, rfl⟩ := List.mem_map.1 hn
            exact List.length_pos_of_ne_nil (hne c (List.mem_cons_of_mem _ hc))
          simpa using List.card_nsmul_le_sum (bs.map List.length) 1 hone
        have htotal := h.length_eq
        rw [List.length_append] at htotal
        rw [List.length_cons, List.length_cons] at hlen
        exact List.length_eq_zero_iff.1 (by omega)
      subst hxs
      refine .cons ⟨x, rfl, hx⟩ (ih (by simpa using hlen) (fun b hb => hne b (List.mem_cons_of_mem _ hb)) h)

end Build

/-! ## A section -/

/-- The relocations of a RELR section are exact if and only if each address is read from one section,
which has what is stored there. -/
theorem relr_exact_iff (elf : ElfMap) (isLittleEndian : Bool) (entries : List UInt64) :
    RelrExact elf isLittleEndian entries ↔ ReadFromOne elf entries := by
  rw [RelrExact, ReadFromOne, buildRelocList, Option.bind_eq_bind]
  cases hsections : makeVirtualAddresses elf with
  | none => simp
  | some sections =>
    simp only [Option.bind_some, Option.some.injEq, exists_eq_left']
    constructor
    · rintro ⟨relocs, hbuild, hexact⟩
      have hcovered : ∀ address ∈ encoded entries, sections.any (·.covers address) = true := by
        intro address haddress
        obtain ⟨r, hr, hra⟩ := exists_left_of_forall₂ (R := fun r a => r.address = a)
          ((hexact.imp fun _ _ h => h.1).flip) address haddress
        exact hra ▸ covered_of_mem_buildRelr hbuild r hr
      rw [encoded] at hcovered
      rw [buildRelr_eq hcovered] at hbuild
      obtain ⟨bs, hbs, rfl⟩ := Option.map_eq_some_iff.1 hbuild
      have hall := mapM_eq_some_iff.1 hbs
      have hne : ∀ b ∈ bs, b ≠ [] := by
        rintro b hb rfl
        obtain ⟨address, haddress, hr⟩ := exists_left_of_forall₂ hall [] hb
        obtain ⟨sec, hsec, hcov⟩ := List.any_eq_true.1 (hcovered address haddress)
        have hlen := (relocsAt_spec hr).1
        exact List.ne_nil_of_mem (List.mem_filter.2 ⟨hsec, hcov⟩) (List.length_eq_zero_iff.1 hlen.symm)
      have hone := forall₂_flatten hall.length_eq.symm hne hexact
      intro address haddress
      obtain ⟨b, -, hr, r, rfl, hexact⟩ :=
        exists_right_of_forall₂ (List.Forall₂.mp (fun _ _ => And.intro) hall hone) address haddress
      obtain ⟨sec, bytes, hsec, hbytes, rfl⟩ := relocsAt_eq_singleton_iff.1 hr
      obtain ⟨-, -, -, stored, hstored, haddend⟩ := hexact
      have heq := eq_of_ofNat_leNat (length_dataAt hbytes) (length_storedBytes hstored) haddend
      exact ⟨sec, bytes, hsec, hbytes, heq ▸ hstored⟩
    · intro h
      obtain ⟨rs, hrs⟩ := exists_forall₂ (R := fun address r =>
          relocsAt elf isLittleEndian sections address = some [r] ∧ ∃ bytes, storedBytes elf address = some bytes ∧
            r = ⟨address, R_X86_64_RELATIVE, 0, UInt64.ofNat (leNat bytes)⟩) (l := encoded entries) (by
        intro address haddress
        obtain ⟨sec, bytes, hsec, hbytes, hstored⟩ := h address haddress
        exact ⟨_, relocsAt_eq_singleton_iff.2 ⟨sec, bytes, hsec, hbytes, rfl⟩, bytes, hstored, rfl⟩)
      have hcovered : ∀ address ∈ encoded entries, sections.any (·.covers address) = true := by
        intro address haddress
        obtain ⟨r, -, hr, bytes, -, rfl⟩ := exists_right_of_forall₂ hrs address haddress
        exact covered_of_mem_relocsAt hr _ List.mem_cons_self
      have hmapM : (encoded entries).mapM (relocsAt elf isLittleEndian sections) = some (rs.map ([·])) := by
        rw [mapM_eq_some_iff, List.forall₂_map_right_iff]
        exact hrs.imp fun _ _ h => h.1
      refine ⟨rs, ?_, hrs.imp fun address r h => ?_⟩
      · rw [encoded] at hcovered hmapM
        rw [buildRelr_eq hcovered, hmapM, Option.map_some, ← List.flatMap_def, List.flatMap_singleton']
      · obtain ⟨-, bytes, hstored, rfl⟩ := h
        exact ⟨rfl, rfl, rfl, bytes, hstored, rfl⟩

/-- A word at the start of `.data`, and a `.comment` section that is not loaded. -/
def commentedFile : ElfMap where
  map _ := some 0
  headers := [⟨".data", true, false, 0x1000, 0x1000, 0x10⟩, ⟨".comment", false, false, 0, 0x2000, 0x2000⟩]
  isObjectFile := false

/-- The section that is not loaded is searched from address 0, and gives a second relocation. -/
theorem commentedFile_relocated_twice : InOneSection commentedFile [0x1000] ∧
    buildRelocList commentedFile true [0x1000] = some [⟨0x1000, R_X86_64_RELATIVE, 0, 0⟩,
      ⟨0x1000, R_X86_64_RELATIVE, 0, 0⟩] ∧ ¬ RelrExact commentedFile true [0x1000] := by
  have hbuild : buildRelocList commentedFile true [0x1000] = some [⟨0x1000, R_X86_64_RELATIVE, 0, 0⟩,
      ⟨0x1000, R_X86_64_RELATIVE, 0, 0⟩] := by decide +kernel
  refine ⟨?_, hbuild, ?_⟩
  · intro address haddress
    have hone : encoded [0x1000] = [0x1000] := by decide +kernel
    rw [hone, List.mem_singleton] at haddress
    subst haddress
    decide +kernel
  · rintro ⟨relocs, h, hexact⟩
    rw [hbuild] at h
    cases h
    exact absurd hexact.length_eq (by decide +kernel)

end Egalito.Elf
