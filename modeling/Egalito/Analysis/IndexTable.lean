import Mathlib.Tactic
/-!
# Index tables

The part of `JumptableDetection::getBoundFromIndexTable` that follows the search
for the base: the index table is read out of the mapped file, and its largest
entry bounds the jump table. Entries of one byte are read as `char`.
-/

namespace Egalito.Analysis

/-! ## Reading the table -/

/-- The mapped file: its end, what is added to an address of the module, and the bytes that are read. -/
structure ElfMap where
  mapEnd : BitVec 64
  copyBase : BitVec 64
  memory : BitVec 64 → BitVec 8

structure IndextableInfo where
  scale : BitVec 64
  entries : BitVec 64
deriving DecidableEq, Repr

/-- `static_cast<size_t>(*(char *)address)`, where `char` is signed. -/
def ElfMap.charAt (elf : ElfMap) (address : BitVec 64) : BitVec 64 := (elf.memory address).signExtend 64

/-- The bytes of a `uint32_t`, the lowest first. -/
def ElfMap.wordAt (elf : ElfMap) (address : BitVec 64) : BitVec 32 :=
  elf.memory (address + 3) ++ elf.memory (address + 2) ++ elf.memory (address + 1) ++ elf.memory address

/-- `static_cast<size_t>(*(uint32_t *)address)`. -/
def ElfMap.uint32At (elf : ElfMap) (address : BitVec 64) : BitVec 64 := (elf.wordAt address).setWidth 64

/-- `std::max` on `size_t`. -/
def stdMax (a b : BitVec 64) : BitVec 64 := if a < b then b else a

/-- The loop over the entries, with `max` starting at 0. -/
def maxEntry (read : Nat → BitVec 64) : Nat → BitVec 64
  | 0 => 0
  | n + 1 => stdMax (maxEntry read n) (read n)

/-- The known tables by their base, a `std::map`. -/
abbrev IndexTables := BitVec 64 → Option IndextableInfo

/-- `emplace`, which leaves a table that is there. -/
def IndexTables.emplace (indexTables : IndexTables) (base : BitVec 64) (table : IndextableInfo) : IndexTables :=
  if (indexTables base).isSome then indexTables else Function.update indexTables base (some table)

/-- The table at `base`. One that is not known has the scale of the access and the entries that `parseBound` finds, and
is known from then on when it has any; `parsed` is what that call leaves behind. -/
def indexTable (indexTables : IndexTables) (base scale : BitVec 64) (parsed : BitVec 64 × IndexTables) :
    IndextableInfo × IndexTables :=
  match indexTables base with
  | some table => (table, indexTables)
  | none =>
    let table := { scale, entries := parsed.1 }
    (table, if 0 < parsed.1 then parsed.2.emplace base table else parsed.2)

/-- What the caller gets: `false`, a failed assertion, or `true` with `info->entries` set. -/
inductive Bound where
  | notFound
  | aborts
  | entries (count : BitVec 64)
deriving DecidableEq, Repr

def boundFromEntries (elf : ElfMap) (base : BitVec 64) (table : IndextableInfo) : Bound :=
  if table.entries = 0 then .notFound
  else if elf.mapEnd < elf.copyBase + base then .notFound
  else if table.scale = 1 then
    .entries (maxEntry (fun i => elf.charAt (elf.copyBase + base + BitVec.ofNat 64 i)) table.entries.toNat + 1)
  else if table.scale = 4 then
    .entries (maxEntry (fun i => elf.uint32At (elf.copyBase + base + BitVec.ofNat 64 i * 4)) table.entries.toNat + 1)
  else if base = 4 then .entries 1
  else .aborts

def boundFromIndexTable (elf : ElfMap) (indexTables : IndexTables) (base scale : BitVec 64)
    (parsed : BitVec 64 × IndexTables) : Bound × IndexTables :=
  let (table, indexTables) := indexTable indexTables base scale parsed
  (boundFromEntries elf base table, indexTables)

/-! ## The loop computes a maximum -/

theorem toNat_stdMax (a b : BitVec 64) : (stdMax a b).toNat = max a.toNat b.toNat := by
  unfold stdMax
  split <;> rename_i h <;> rw [BitVec.lt_def] at h <;> omega

theorem toNat_maxEntry (read : Nat → BitVec 64) (n : Nat) :
    (maxEntry read n).toNat = (Finset.range n).sup fun i => (read i).toNat := by
  induction n with
  | zero => rfl
  | succ n ih => rw [maxEntry, toNat_stdMax, ih, Finset.range_add_one, Finset.sup_insert, max_comm]

/-! ## The entries of a table -/

/-- The unsigned value of an entry of one or four bytes. -/
def ElfMap.entry (elf : ElfMap) (base : BitVec 64) (table : IndextableInfo) (i : Nat) : Nat :=
  if table.scale = 1 then (elf.memory (elf.copyBase + base + BitVec.ofNat 64 i)).toNat
  else (elf.wordAt (elf.copyBase + base + BitVec.ofNat 64 i * 4)).toNat

def ElfMap.largestEntry (elf : ElfMap) (base : BitVec 64) (table : IndextableInfo) : Nat :=
  (Finset.range table.entries.toNat).sup (elf.entry base table)

theorem toNat_signExtend_of_lt {b : BitVec 8} (h : b.toNat < 128) : (b.signExtend 64).toNat = b.toNat := by
  have hmsb : b.msb = false := BitVec.msb_eq_false_iff_two_mul_lt.2 (by omega)
  rw [BitVec.signExtend_eq_setWidth_of_msb_false hmsb, BitVec.toNat_setWidth]
  omega

/-- A negative `char` is close to 2^64 as a `size_t`. -/
theorem le_toNat_signExtend {b : BitVec 8} (h : 128 ≤ b.toNat) : 2 ^ 64 - 128 ≤ (b.signExtend 64).toNat := by
  have hmsb : b.msb = true := BitVec.msb_eq_true_iff_two_mul_ge.2 (by omega)
  have hlt := b.isLt
  rw [BitVec.toNat_signExtend, BitVec.toNat_setWidth, hmsb, if_pos rfl]
  omega

theorem toNat_uint32At (elf : ElfMap) (address : BitVec 64) : (elf.uint32At address).toNat = (elf.wordAt address).toNat := by
  have hlt := (elf.wordAt address).isLt
  rw [ElfMap.uint32At, BitVec.toNat_setWidth]
  omega

/-- What the loop of the table's scale reads. -/
def ElfMap.read (elf : ElfMap) (base : BitVec 64) (table : IndextableInfo) (i : Nat) : BitVec 64 :=
  if table.scale = 1 then elf.charAt (elf.copyBase + base + BitVec.ofNat 64 i)
  else elf.uint32At (elf.copyBase + base + BitVec.ofNat 64 i * 4)

theorem toNat_read {elf : ElfMap} {base : BitVec 64} {table : IndextableInfo} {i : Nat}
    (h : table.scale ≠ 1 ∨ elf.entry base table i < 128) : (elf.read base table i).toNat = elf.entry base table i := by
  unfold ElfMap.read
  unfold ElfMap.entry at h ⊢
  by_cases hscale : table.scale = 1
  · simp only [hscale, if_true, not_true_eq_false, ne_eq, false_or] at h ⊢
    exact toNat_signExtend_of_lt h
  · simp only [hscale, if_false]
    exact toNat_uint32At elf _

theorem le_toNat_read {elf : ElfMap} {base : BitVec 64} {table : IndextableInfo} {i : Nat} (hscale : table.scale = 1)
    (h : 128 ≤ elf.entry base table i) : 2 ^ 64 - 128 ≤ (elf.read base table i).toNat := by
  unfold ElfMap.read
  unfold ElfMap.entry at h
  rw [if_pos hscale] at h ⊢
  exact le_toNat_signExtend h

theorem entry_lt (elf : ElfMap) (base : BitVec 64) (table : IndextableInfo) (i : Nat) :
    elf.entry base table i < 2 ^ 32 := by
  unfold ElfMap.entry
  split
  · exact lt_trans (elf.memory _).isLt (by decide)
  · exact (elf.wordAt _).isLt

theorem entry_lt_of_char {elf : ElfMap} {base : BitVec 64} {table : IndextableInfo} {i : Nat} (hscale : table.scale = 1) :
    elf.entry base table i < 256 := by
  unfold ElfMap.entry
  rw [if_pos hscale]
  exact (elf.memory _).isLt

/-! ## The entries that are derived -/

theorem entries_eq {elf : ElfMap} {base entries : BitVec 64} {table : IndextableInfo}
    (h : boundFromEntries elf base table = .entries entries) (hscale : table.scale = 1 ∨ table.scale = 4) :
    entries = maxEntry (elf.read base table) table.entries.toNat + 1 := by
  unfold boundFromEntries at h
  split at h
  · cases h
  split at h
  · cases h
  split at h
  · rename_i hone
    have hread : elf.read base table = fun i => elf.charAt (elf.copyBase + base + BitVec.ofNat 64 i) := by
      funext i
      rw [ElfMap.read, if_pos hone]
    rw [hread]
    exact (Bound.entries.inj h).symm
  · rename_i hone
    have hread : elf.read base table = fun i => elf.uint32At (elf.copyBase + base + BitVec.ofNat 64 i * 4) := by
      funext i
      rw [ElfMap.read, if_neg hone]
    rw [if_pos (hscale.resolve_left hone)] at h
    rw [hread]
    exact (Bound.entries.inj h).symm

theorem toNat_maxEntry_add_one (read : Nat → BitVec 64) (n : Nat) :
    (maxEntry read n + 1).toNat = (((Finset.range n).sup fun i => (read i).toNat) + 1) % 2 ^ 64 := by
  rw [BitVec.toNat_add, toNat_maxEntry]
  rfl

theorem boundFromEntries_exact_iff {elf : ElfMap} {base entries : BitVec 64} {table : IndextableInfo}
    (h : boundFromEntries elf base table = .entries entries) (hscale : table.scale = 1 ∨ table.scale = 4) :
    entries.toNat = 1 + elf.largestEntry base table ↔
      table.scale = 4 ∨ ∀ i < table.entries.toNat, elf.entry base table i < 128 := by
  rw [entries_eq h hscale, toNat_maxEntry_add_one]
  constructor
  · intro heq
    by_contra hcon
    push Not at hcon
    obtain ⟨hne, i, hi, hentry⟩ := hcon
    have hone := hscale.resolve_right hne
    -- one byte from 0x80 on makes the maximum, as a `size_t`, larger than any byte
    have hlarge : 2 ^ 64 - 128 ≤ (Finset.range table.entries.toNat).sup fun i => (elf.read base table i).toNat :=
      (le_toNat_read hone hentry).trans
        (Finset.le_sup (f := fun i => (elf.read base table i).toNat) (Finset.mem_range.2 hi))
    have hlt : ((Finset.range table.entries.toNat).sup fun i => (elf.read base table i).toNat) < 2 ^ 64 := by
      rw [← toNat_maxEntry]
      exact BitVec.isLt _
    have hsmall : elf.largestEntry base table ≤ 255 :=
      Finset.sup_le fun i _ => Nat.le_of_lt_succ (entry_lt_of_char hone)
    have hpos : 128 ≤ elf.largestEntry base table :=
      hentry.trans (Finset.le_sup (f := elf.entry base table) (Finset.mem_range.2 hi))
    omega
  · intro hcond
    have hread : ((Finset.range table.entries.toNat).sup fun i => (elf.read base table i).toNat) =
        elf.largestEntry base table := by
      refine Finset.sup_congr rfl fun i hi => toNat_read ?_
      refine hcond.imp (fun hfour => ?_) (fun hall => hall i (Finset.mem_range.1 hi))
      rw [hfour]
      decide
    have hlt : elf.largestEntry base table ≤ 2 ^ 32 := Finset.sup_le fun i _ => (entry_lt elf base table i).le
    rw [hread]
    omega

/-- The entries derived are one plus the largest unsigned entry exactly for tables of four-byte entries, and for tables
of bytes below 0x80. -/
theorem boundFromIndexTable_exact_iff {elf : ElfMap} {indexTables : IndexTables} {base scale entries : BitVec 64}
    {parsed : BitVec 64 × IndexTables} {table : IndextableInfo}
    (htable : (indexTable indexTables base scale parsed).1 = table) (hscale : table.scale = 1 ∨ table.scale = 4)
    (h : (boundFromIndexTable elf indexTables base scale parsed).1 = .entries entries) :
    entries.toNat = 1 + elf.largestEntry base table ↔
      table.scale = 4 ∨ ∀ i < table.entries.toNat, elf.entry base table i < 128 := by
  subst htable
  exact boundFromEntries_exact_iff h hscale

/-- A file with one byte, `value`, at every address. -/
def constantFile (value : BitVec 8) : ElfMap := { mapEnd := 0x2000, copyBase := 0x1000, memory := fun _ => value }

theorem boundFromIndexTable_exact_sample :
    (1 : Nat) + (constantFile 5).largestEntry 0x10 { scale := 1, entries := 3 } = (6 : BitVec 64).toNat :=
  have h : (boundFromIndexTable (constantFile 5) (fun _ => none) 0x10 1 (3, fun _ => none)).1 = .entries 6 := rfl
  ((boundFromIndexTable_exact_iff rfl (.inl rfl) h).2 (.inr (by decide))).symm

/-- With one byte 0xff the jump table gets no entries; the index table asks for 256. -/
theorem signed_entry :
    (boundFromIndexTable (constantFile 0xff) (fun _ => none) 0x10 1 (1, fun _ => none)).1 = .entries 0 ∧
      1 + (constantFile 0xff).largestEntry 0x10 { scale := 1, entries := 1 } = 256 := by
  decide

/-- A table that is known keeps its scale and its entries, whatever is found out about it later. -/
theorem indexTable_again {indexTables : IndexTables} {base scale scale' : BitVec 64}
    {parsed parsed' : BitVec 64 × IndexTables} (hpos : 0 < parsed.1) (hbase : parsed.2 base = none) :
    (indexTable (indexTable indexTables base scale parsed).2 base scale' parsed').1 =
      (indexTable indexTables base scale parsed).1 := by
  unfold indexTable
  cases hknown : indexTables base with
  | some table => simp only [hknown]
  | none => simp only [if_pos hpos, IndexTables.emplace, hbase, Option.isSome_none, Bool.false_eq_true, if_false,
      Function.update_self]

end Egalito.Analysis
