import Egalito.Lib.Ordered
import Egalito.Lib.Stream
/-!
# The global PLT

`MakeGlobalPLT` collects the trampolines of all modules that no function
resolves, and makes from this one list the slots of `.g.got.plt`, the
relocations in `.rela.plt` and `.rela.dyn` and the code of `.plt`.
`UpdatePLTLinks` points the calls at that code. The slots and the entries are
numbered over the whole list, the relocations of `.rela.plt` over the entries
that are bound lazily.
-/

open Egalito.Lib

namespace Egalito.Generate

/-- The address of a `PLTTrampoline`. -/
abbrev TrampolinePtr := Nat

structure ExternalSymbol where
  name : String
  resolved : Bool

structure PLTTrampoline where
  externalSymbol : Option ExternalSymbol
  pltGot : Bool

/-- `ElfXX_Rela`. -/
structure Rela where
  rOffset : BitVec 64
  rInfo : BitVec 64
  rAddend : BitVec 64
deriving DecidableEq

/-- `ELF64_R_INFO`. -/
def elfRInfo (sym type : BitVec 64) : BitVec 64 := (sym <<< 32) + type

section GlobalPLT

variable (obj : TrampolinePtr → PLTTrampoline)

/-- `MakeGlobalPLT::entries` and the map that `UpdatePLTLinks` reads; the map gives zero for
a trampoline without an entry. -/
structure PLTEntries where
  entries : List TrampolinePtr
  entryMap : TrampolinePtr → Nat

/-- `plt->getTarget()` asserts that there is an external symbol. -/
def collectOne (acc : PLTEntries) (plt : TrampolinePtr) : Option PLTEntries := do
  let extsym ← (obj plt).externalSymbol
  if extsym.resolved then return acc
  let entries := acc.entries ++ [plt]
  return ⟨entries, Function.update acc.entryMap plt entries.length⟩

/-- The trampolines of the program, module by module. -/
def collectPLTEntries (program : List (List TrampolinePtr)) : Option PLTEntries :=
  program.flatten.foldlM (collectOne obj) ⟨[], fun _ => 0⟩

/-! ## Data -/

/-- The slots come first in the segment at this address. -/
def gotpltAddress : BitVec 64 := 0x500000

/-- The code is alone in the segment at this address. -/
def pltAddress : BitVec 64 := 0x600000

variable (dynsymIndex : ExternalSymbol → BitVec 64)

/-- The relocation that `addPLTRef` makes, as it is written. `R_X86_64_GLOB_DAT` is 6,
`R_X86_64_JUMP_SLOT` is 7; `dynsymIndex` is the index that the symbol gets in `.dynsym`. -/
def addPLTRef (plt : TrampolinePtr) (pltIndex : Nat) : Rela where
  rOffset := gotpltAddress + BitVec.ofNat 64 (pltIndex * 8)
  rInfo := elfRInfo (((obj plt).externalSymbol.map dynsymIndex).getD 0) (if (obj plt).pltGot then 6 else 7)
  rAddend := 0

/-- One of the two loops of `makePLTData`, which differ in the entries they take; each
relocation is given with its trampoline. -/
def addPLTRefs (pltGot : Bool) : Nat → List TrampolinePtr → List (TrampolinePtr × Rela)
  | _, [] => []
  | index, plt :: entries =>
    if (obj plt).pltGot = pltGot then (plt, addPLTRef obj dynsymIndex plt index) :: addPLTRefs pltGot (index + 1) entries
    else addPLTRefs pltGot (index + 1) entries

/-- The content of `.rela.plt`; the first three slots are padding. -/
def relaPlt (entries : List TrampolinePtr) : List (TrampolinePtr × Rela) := addPLTRefs obj dynsymIndex false 3 entries

/-- What is added to `.rela.dyn`. -/
def relaDyn (entries : List TrampolinePtr) : List (TrampolinePtr × Rela) := addPLTRefs obj dynsymIndex true 3 entries

end GlobalPLT

/-! ## Code -/

/-- A store through an `int32_t` pointer. -/
def int32Bytes (value : BitVec 64) : List UInt8 := leBytes 4 value.toNat

/-- The bytes of an entry: the template with its offsets filled in. -/
def addEntry (index : Nat) : List UInt8 :=
  if index = 0 then
    let pushOffset := (gotpltAddress + 1 * 8) - (pltAddress + 6)
    let jmpOffset := (gotpltAddress + 2 * 8) - (pltAddress + (6 + 6))
    [0xff, 0x35] ++ int32Bytes pushOffset ++ [0xff, 0x25] ++ int32Bytes jmpOffset ++ [0x0f, 0x1f, 0x40, 0x00]
  else
    let jmpOffset := (gotpltAddress + BitVec.ofNat 64 ((index - 1 + 3) * 8)) -
      (pltAddress + BitVec.ofNat 64 (index * 0x10) + 6)
    let jmp2Offset := pltAddress - (pltAddress + BitVec.ofNat 64 (index * 0x10) + (6 + 5 + 5))
    [0xff, 0x25] ++ int32Bytes jmpOffset ++ [0x68] ++ int32Bytes (BitVec.ofNat 64 (index - 1)) ++
      [0xe9] ++ int32Bytes jmp2Offset

def addEntries : Nat → List TrampolinePtr → List (Option TrampolinePtr × List UInt8)
  | _, [] => []
  | index, plt :: entries => (some plt, addEntry index) :: addEntries (index + 1) entries

/-- The entries of `.plt`, with the trampolines they are for. -/
def makePLTCode (entries : List TrampolinePtr) : List (Option TrampolinePtr × List UInt8) :=
  (none, addEntry 0) :: addEntries 1 entries

/-- The link of a control flow instruction. -/
inductive CallLink
  | plt (pltTrampoline : TrampolinePtr)
  | unresolvedRelative (target : BitVec 64)
  | other
deriving DecidableEq

/-- `Updater::visit`; the address is hardcoded in `UpdatePLTLinks::execute`. -/
def updatePLTLink (entryMap : TrampolinePtr → Nat) : CallLink → CallLink
  | .plt target =>
    let index := entryMap target
    if index = 0 then .plt target
    else .unresolvedRelative (0x600000 + BitVec.ofNat 64 (index * 0x10))
  | link => link

/-! ## What the PLT has to do -/

/-- `jmp [rip+disp32]; push imm32` at an address: the slot that is read and the pushed value. -/
def decodeEntry (address : BitVec 64) (code : List UInt8) : Option (BitVec 64 × BitVec 64) :=
  if code.take 2 = [0xff, 0x25] ∧ (code.drop 6).take 1 = [0x68] then
    some (address + 6 + (BitVec.ofNat 32 (leNat ((code.drop 2).take 4))).signExtend 64,
      (BitVec.ofNat 32 (leNat ((code.drop 7).take 4))).signExtend 64)
  else none

/-- The entries stand one behind the other. -/
def entryStart (code : List (Option TrampolinePtr × List UInt8)) (k : Nat) : BitVec 64 :=
  pltAddress + BitVec.ofNat 64 ((code.take k).map fun entry => entry.2.length).sum

section Right

variable (obj : TrampolinePtr → PLTTrampoline) (dynsymIndex : ExternalSymbol → BitVec 64) (made : PLTEntries)

/-- The slot of an entry is the one that is relocated for its trampoline, a lazily bound
entry pushes the index of its relocation, and a call is sent to its own entry. -/
structure PLTRight : Prop where
  entry : ∀ k plt, made.entries[k]? = some plt → ∃ bytes slot index,
    (makePLTCode made.entries)[k + 1]? = some (some plt, bytes) ∧
    decodeEntry (entryStart (makePLTCode made.entries) (k + 1)) bytes = some (slot, index) ∧
    (∃ r, (plt, r) ∈ relaPlt obj dynsymIndex made.entries ++ relaDyn obj dynsymIndex made.entries) ∧
    (∀ r, (plt, r) ∈ relaPlt obj dynsymIndex made.entries ++ relaDyn obj dynsymIndex made.entries → slot = r.rOffset) ∧
    ((obj plt).pltGot = false → ∃ r, (relaPlt obj dynsymIndex made.entries)[index.toNat]? = some (plt, r))
  redirect : ∀ target address, updatePLTLink made.entryMap (.plt target) = .unresolvedRelative address →
    ∃ k bytes, (makePLTCode made.entries)[k]? = some (some target, bytes) ∧
      address = entryStart (makePLTCode made.entries) k

/-- The trampolines that get an entry. -/
def unresolved (program : List (List TrampolinePtr)) : List TrampolinePtr :=
  program.flatten.filter fun plt => (obj plt).externalSymbol.any fun extsym => !extsym.resolved

end Right

/-! ## The collected entries -/

section Collected

variable {obj : TrampolinePtr → PLTTrampoline}

/-- The map leads to the place of an entry, counted from one. -/
def PLTEntries.Indexed (made : PLTEntries) : Prop :=
  ∀ plt, made.entryMap plt ≠ 0 → made.entries[made.entryMap plt - 1]? = some plt

theorem collectOne_spec {acc acc' : PLTEntries} {plt : TrampolinePtr} (h : collectOne obj acc plt = some acc')
    (hacc : acc.Indexed) : acc'.Indexed ∧ acc'.entries = acc.entries ++
      [plt].filter fun plt => (obj plt).externalSymbol.any fun extsym => !extsym.resolved := by
  simp only [collectOne, Option.bind_eq_bind, Option.bind_eq_some_iff] at h
  obtain ⟨extsym, hext, h⟩ := h
  split at h
  case isTrue hr =>
    cases h
    exact ⟨hacc, by simp [hext, hr]⟩
  case isFalse hr =>
    cases h
    refine ⟨fun p hp => ?_, by simp [hext, hr]⟩
    by_cases hpp : p = plt
    · simp [hpp]
    · simp only [Function.update_of_ne hpp] at hp ⊢
      have hold := hacc p hp
      rw [List.getElem?_append_left (List.getElem?_eq_some_iff.1 hold).1]
      exact hold

theorem collect_spec {program : List (List TrampolinePtr)} {made : PLTEntries}
    (h : collectPLTEntries obj program = some made) : made.Indexed ∧ made.entries = unresolved obj program := by
  suffices ∀ (plts : List TrampolinePtr) acc, acc.Indexed → plts.foldlM (collectOne obj) acc = some made →
      made.Indexed ∧ made.entries = acc.entries ++
        plts.filter fun plt => (obj plt).externalSymbol.any fun extsym => !extsym.resolved from
    this program.flatten ⟨[], fun _ => 0⟩ (fun _ hp => absurd rfl hp) h
  intro plts
  induction plts with
  | nil =>
    rintro acc hacc h
    cases h
    exact ⟨hacc, by simp⟩
  | cons plt plts ih =>
    intro acc hacc h
    rw [List.foldlM_cons, Option.bind_eq_bind, Option.bind_eq_some_iff] at h
    obtain ⟨acc', hone, h⟩ := h
    obtain ⟨hacc', heq⟩ := collectOne_spec hone hacc
    obtain ⟨hmade, hentries⟩ := ih acc' hacc' h
    refine ⟨hmade, ?_⟩
    rw [hentries, heq, List.append_assoc, ← List.filter_append]
    rfl

end Collected

/-! ## Code entries -/

theorem length_int32Bytes (value : BitVec 64) : (int32Bytes value).length = 4 := length_leBytes 4 _

theorem length_addEntry (index : Nat) : (addEntry index).length = 16 := by
  unfold addEntry
  split <;> simp only [List.length_append, length_int32Bytes, List.length_cons, List.length_nil]

theorem getElem?_addEntries (index : Nat) (entries : List TrampolinePtr) (k : Nat) :
    (addEntries index entries)[k]? = entries[k]?.map fun plt => (some plt, addEntry (index + k)) := by
  induction entries generalizing index k with
  | nil => rfl
  | cons plt entries ih =>
    cases k with
    | zero => simp only [addEntries, List.getElem?_cons_zero, Option.map_some, Nat.add_zero]
    | succ k =>
      rw [addEntries, List.getElem?_cons_succ, List.getElem?_cons_succ, ih]
      simp only [Nat.add_assoc, Nat.add_comm 1 k]

theorem makePLTCode_entry {entries : List TrampolinePtr} {k : Nat} {plt : TrampolinePtr} (h : entries[k]? = some plt) :
    (makePLTCode entries)[k + 1]? = some (some plt, addEntry (k + 1)) := by
  rw [makePLTCode, List.getElem?_cons_succ, getElem?_addEntries, h, Option.map_some, Nat.add_comm 1 k]

theorem length_addEntries (index : Nat) (entries : List TrampolinePtr) :
    (addEntries index entries).length = entries.length := by
  induction entries generalizing index with
  | nil => rfl
  | cons plt entries ih => rw [addEntries, List.length_cons, ih, List.length_cons]

theorem entryStart_eq {entries : List TrampolinePtr} {k : Nat} (hk : k ≤ entries.length) :
    entryStart (makePLTCode entries) k = pltAddress + BitVec.ofNat 64 (k * 0x10) := by
  have hall : ∀ e ∈ makePLTCode entries, e.2.length = 16 := by
    intro e he
    rcases List.mem_cons.1 he with rfl | he
    · exact length_addEntry 0
    · obtain ⟨i, hi⟩ := List.mem_iff_getElem?.1 he
      rw [getElem?_addEntries, Option.map_eq_some_iff] at hi
      obtain ⟨plt, -, rfl⟩ := hi
      exact length_addEntry _
  have hlen : ((makePLTCode entries).take k).length = k := by
    rw [List.length_take, makePLTCode, List.length_cons, length_addEntries]
    omega
  have hmap : ((makePLTCode entries).take k).map (fun e => e.2.length) = List.replicate k 16 := by
    rw [List.eq_replicate_iff, List.length_map]
    refine ⟨hlen, fun n hn => ?_⟩
    obtain ⟨e, he, rfl⟩ := List.mem_map.1 hn
    exact hall e (List.mem_of_mem_take he)
  rw [entryStart, hmap, List.sum_replicate, smul_eq_mul]

/-- The offset from the end of the jump to its slot, before it is cut to 32 bits. -/
def slotOffset (k : Nat) : BitVec 64 :=
  (gotpltAddress + BitVec.ofNat 64 ((k + 3) * 8)) - (pltAddress + BitVec.ofNat 64 ((k + 1) * 0x10) + 6)

theorem decode_addEntry (address : BitVec 64) (k : Nat) : decodeEntry address (addEntry (k + 1)) =
    some (address + 6 + ((slotOffset k).setWidth 32).signExtend 64, (BitVec.ofNat 32 k).signExtend 64) := by
  have hbytes : ∀ x : BitVec 64, BitVec.ofNat 32 (leNat (int32Bytes x)) = x.setWidth 32 := fun x => by
    rw [int32Bytes, leNat_leBytes]
    apply BitVec.eq_of_toNat_eq
    rw [BitVec.toNat_ofNat, BitVec.toNat_setWidth]
    exact Nat.mod_mod x.toNat (2 ^ 32)
  have hparts : ∃ jmp2 : BitVec 64, addEntry (k + 1) = [0xff, 0x25] ++ (int32Bytes (slotOffset k) ++ ([0x68] ++
      (int32Bytes (BitVec.ofNat 64 k) ++ ([0xe9] ++ int32Bytes jmp2)))) := by
    refine ⟨pltAddress - (pltAddress + BitVec.ofNat 64 ((k + 1) * 0x10) + (6 + 5 + 5)), ?_⟩
    rw [addEntry, if_neg (Nat.succ_ne_zero k)]
    simp only [List.append_assoc, Nat.add_sub_cancel, slotOffset]
  obtain ⟨jmp2, hparts⟩ := hparts
  have hdisp : ((addEntry (k + 1)).drop 2).take 4 = int32Bytes (slotOffset k) := by
    rw [hparts, List.drop_append_of_le_length (by simp), List.drop_eq_nil_of_le (by simp), List.nil_append,
      List.take_left' (length_int32Bytes _)]
  have htail : (addEntry (k + 1)).drop 6 = [0x68] ++ (int32Bytes (BitVec.ofNat 64 k) ++ ([0xe9] ++ int32Bytes jmp2)) := by
    rw [hparts, ← List.append_assoc]
    exact List.drop_left' (by rw [List.length_append, length_int32Bytes]; rfl)
  have himm : ((addEntry (k + 1)).drop 7).take 4 = int32Bytes (BitVec.ofNat 64 k) := by
    rw [← List.drop_drop (i := 1) (j := 6), htail, List.drop_left' (by rfl), List.take_left' (length_int32Bytes _)]
  have hhead : (addEntry (k + 1)).take 2 = [0xff, 0x25] := by
    rw [hparts]
    exact List.take_left' rfl
  rw [decodeEntry, if_pos ⟨hhead, by rw [htail]; exact List.take_left' rfl⟩, hdisp, himm, hbytes, hbytes]
  congr 3
  apply BitVec.eq_of_toNat_eq
  simp only [BitVec.toNat_setWidth, BitVec.toNat_ofNat]
  omega

/-- The offset fits for this many entries and no more. -/
theorem slotOffset_fits {k : Nat} (hk : k ≤ 268304384) : ((slotOffset k).setWidth 32).signExtend 64 = slotOffset k := by
  have hnat : (slotOffset k).toNat = 2 ^ 64 - (0xffffe + 8 * k) := by
    have hgot : gotpltAddress.toNat = 0x500000 := rfl
    have hplt : pltAddress.toNat = 0x600000 := rfl
    have hjmp : (6 : BitVec 64).toNat = 6 := rfl
    simp only [slotOffset, BitVec.toNat_sub, BitVec.toNat_add, BitVec.toNat_ofNat]
    omega
  apply BitVec.eq_of_toNat_eq
  rw [BitVec.toNat_signExtend, BitVec.msb_eq_decide, BitVec.toNat_setWidth, BitVec.toNat_setWidth, hnat]
  split <;> simp_all <;> omega

theorem slotOffset_overflows : ((slotOffset 268304385).setWidth 32).signExtend 64 ≠ slotOffset 268304385 := by
  decide

theorem slot_eq_iff (k : Nat) : pltAddress + BitVec.ofNat 64 ((k + 1) * 0x10) + 6 +
      ((slotOffset k).setWidth 32).signExtend 64 = gotpltAddress + BitVec.ofNat 64 ((k + 3) * 8) ↔
    ((slotOffset k).setWidth 32).signExtend 64 = slotOffset k := by
  generalize ((slotOffset k).setWidth 32).signExtend 64 = disp
  rw [slotOffset, BitVec.eq_sub_iff_add_eq, BitVec.add_comm]

/-! ## Relocations -/

section Relocations

variable {obj : TrampolinePtr → PLTTrampoline} {dynsymIndex : ExternalSymbol → BitVec 64}

theorem mem_addPLTRefs {pltGot : Bool} {index : Nat} {entries : List TrampolinePtr} {plt : TrampolinePtr} {r : Rela} :
    (plt, r) ∈ addPLTRefs obj dynsymIndex pltGot index entries ↔
      ∃ k, entries[k]? = some plt ∧ (obj plt).pltGot = pltGot ∧ r = addPLTRef obj dynsymIndex plt (index + k) := by
  induction entries generalizing index with
  | nil => simp [addPLTRefs]
  | cons p entries ih =>
    have hshift : ∀ k, index + 1 + k = index + (k + 1) := fun k => by omega
    have hrest : (∃ k, (p :: entries)[k]? = some plt ∧ (obj plt).pltGot = pltGot ∧
          r = addPLTRef obj dynsymIndex plt (index + k)) ↔
        (p = plt ∧ (obj plt).pltGot = pltGot ∧ r = addPLTRef obj dynsymIndex plt index) ∨
        ∃ k, entries[k]? = some plt ∧ (obj plt).pltGot = pltGot ∧ r = addPLTRef obj dynsymIndex plt (index + 1 + k) := by
      constructor
      · rintro ⟨_ | k, hk, h⟩
        · exact Or.inl ⟨by simpa using hk, h⟩
        · exact Or.inr ⟨k, by simpa using hk, by rw [hshift]; exact h⟩
      · rintro (⟨rfl, h⟩ | ⟨k, hk, h⟩)
        · exact ⟨0, rfl, h⟩
        · exact ⟨k + 1, by simpa using hk, by rw [← hshift]; exact h⟩
    rw [hrest, addPLTRefs]
    split
    case isTrue hp =>
      rw [List.mem_cons, ih, Prod.mk.injEq]
      refine or_congr_left ⟨?_, ?_⟩
      · rintro ⟨rfl, rfl⟩
        exact ⟨rfl, hp, rfl⟩
      · rintro ⟨rfl, -, rfl⟩
        exact ⟨rfl, rfl⟩
    case isFalse hp =>
      rw [ih]
      refine ⟨Or.inr, ?_⟩
      rintro (⟨rfl, h, -⟩ | h)
      · exact absurd h hp
      · exact h

variable (obj dynsymIndex) in
/-- Every entry has its relocations at its slot. -/
theorem reloc_offset {entries : List TrampolinePtr} (hnodup : entries.Nodup) {k : Nat} {plt : TrampolinePtr}
    (hk : entries[k]? = some plt) :
    (∃ r, (plt, r) ∈ relaPlt obj dynsymIndex entries ++ relaDyn obj dynsymIndex entries) ∧
    ∀ r, (plt, r) ∈ relaPlt obj dynsymIndex entries ++ relaDyn obj dynsymIndex entries →
      r.rOffset = gotpltAddress + BitVec.ofNat 64 ((k + 3) * 8) := by
  constructor
  · refine ⟨addPLTRef obj dynsymIndex plt (3 + k), ?_⟩
    rw [List.mem_append, relaPlt, relaDyn, mem_addPLTRefs, mem_addPLTRefs]
    cases hgot : (obj plt).pltGot with
    | false => exact Or.inl ⟨k, hk, rfl, rfl⟩
    | true => exact Or.inr ⟨k, hk, rfl, rfl⟩
  · intro r hr
    have hplace : ∃ j, entries[j]? = some plt ∧ r = addPLTRef obj dynsymIndex plt (3 + j) := by
      rw [List.mem_append, relaPlt, relaDyn, mem_addPLTRefs, mem_addPLTRefs] at hr
      rcases hr with ⟨j, hj, -, hr⟩ | ⟨j, hj, -, hr⟩ <;> exact ⟨j, hj, hr⟩
    obtain ⟨j, hj, rfl⟩ := hplace
    obtain rfl : k = j := (List.getElem?_inj (List.getElem?_eq_some_iff.1 hk).1 hnodup).1 (hk.trans hj.symm)
    rw [addPLTRef, Nat.add_comm 3 k]

variable (dynsymIndex) in
theorem map_fst_addPLTRefs (pltGot : Bool) (index : Nat) (entries : List TrampolinePtr) :
    (addPLTRefs obj dynsymIndex pltGot index entries).map Prod.fst =
      entries.filter fun plt => (obj plt).pltGot = pltGot := by
  induction entries generalizing index with
  | nil => rfl
  | cons p entries ih =>
    rw [addPLTRefs]
    split
    case isTrue hp => rw [List.map_cons, ih, List.filter_cons_of_pos (by simpa using hp)]
    case isFalse hp => rw [ih, List.filter_cons_of_neg (by simpa using hp)]

/-- The relocation of a lazily bound entry has the index of the entry exactly when all
entries before it are bound lazily. -/
theorem relaPlt_index_iff {entries : List TrampolinePtr} (hnodup : entries.Nodup) {k : Nat} {plt : TrampolinePtr}
    (hk : entries[k]? = some plt) (hlazy : (obj plt).pltGot = false) :
    (∃ r, (relaPlt obj dynsymIndex entries)[k]? = some (plt, r)) ↔
      ∀ p ∈ entries.take k, (obj p).pltGot = false := by
  have hfst : (∃ r, (relaPlt obj dynsymIndex entries)[k]? = some (plt, r)) ↔
      (entries.filter fun p => (obj p).pltGot = false)[k]? = some plt := by
    rw [relaPlt, ← map_fst_addPLTRefs dynsymIndex false 3 entries, List.getElem?_map]
    simp
  have hcount := getElem?_filter_countP (p := fun p => decide ((obj p).pltGot = false)) hk (by simpa using hlazy)
  have hlen : (entries.take k).length = k := List.length_take_of_le (List.getElem?_eq_some_iff.1 hk).1.le
  have hall : (∀ p ∈ entries.take k, (obj p).pltGot = false) ↔
      (entries.take k).countP (fun p => decide ((obj p).pltGot = false)) = k := by
    have hcountP := List.countP_eq_length (p := fun p => decide ((obj p).pltGot = false)) (l := entries.take k)
    rw [hlen] at hcountP
    rw [hcountP]
    simp
  rw [hfst, hall, ← hcount, eq_comm]
  exact List.getElem?_inj (List.getElem?_eq_some_iff.1 hcount).1 (hnodup.filter _)

theorem toNat_pushed {k : Nat} (hk : k < 2 ^ 31) : ((BitVec.ofNat 32 k).signExtend 64).toNat = k := by
  rw [BitVec.toNat_signExtend, BitVec.msb_eq_decide, BitVec.toNat_setWidth, BitVec.toNat_ofNat]
  have hlow : k % 2 ^ 32 = k := Nat.mod_eq_of_lt (by omega)
  rw [hlow, if_neg (by simpa using hk)]
  omega

/-! ## The whole PLT -/

/-- A call is always sent to its own entry. -/
theorem redirect_right {made : PLTEntries} (hmade : made.Indexed) {target : TrampolinePtr} {address : BitVec 64}
    (h : updatePLTLink made.entryMap (.plt target) = .unresolvedRelative address) :
    ∃ k bytes, (makePLTCode made.entries)[k]? = some (some target, bytes) ∧
      address = entryStart (makePLTCode made.entries) k := by
  simp only [updatePLTLink] at h
  split at h
  case isTrue => cases h
  case isFalse hne =>
    have hentry := hmade target hne
    have hcode := makePLTCode_entry hentry
    obtain ⟨hlt, -⟩ := List.getElem?_eq_some_iff.1 hentry
    rw [Nat.sub_add_cancel (Nat.pos_of_ne_zero hne)] at hcode
    refine ⟨_, _, hcode, ?_⟩
    rw [entryStart_eq (by omega)]
    exact (CallLink.unresolvedRelative.inj h).symm

/-- The decoded entry that the property asks for is the one at the right place. -/
theorem entry_iff {entries : List TrampolinePtr} (hnodup : entries.Nodup) {k : Nat} {plt : TrampolinePtr}
    (hk : entries[k]? = some plt) :
    (∃ bytes slot index, (makePLTCode entries)[k + 1]? = some (some plt, bytes) ∧
      decodeEntry (entryStart (makePLTCode entries) (k + 1)) bytes = some (slot, index) ∧
      (∃ r, (plt, r) ∈ relaPlt obj dynsymIndex entries ++ relaDyn obj dynsymIndex entries) ∧
      (∀ r, (plt, r) ∈ relaPlt obj dynsymIndex entries ++ relaDyn obj dynsymIndex entries → slot = r.rOffset) ∧
      ((obj plt).pltGot = false → ∃ r, (relaPlt obj dynsymIndex entries)[index.toNat]? = some (plt, r))) ↔
    ((slotOffset k).setWidth 32).signExtend 64 = slotOffset k ∧ ((obj plt).pltGot = false →
      ∃ r, (relaPlt obj dynsymIndex entries)[((BitVec.ofNat 32 k).signExtend 64).toNat]? = some (plt, r)) := by
  obtain ⟨hlt, -⟩ := List.getElem?_eq_some_iff.1 hk
  obtain ⟨⟨r, hr⟩, hoff⟩ := reloc_offset obj dynsymIndex hnodup hk
  rw [← slot_eq_iff]
  constructor
  · rintro ⟨bytes, slot, index, hcode, hdec, -, hslot, hindex⟩
    rw [makePLTCode_entry hk, Option.some.injEq, Prod.mk.injEq] at hcode
    obtain ⟨-, rfl⟩ := hcode
    rw [entryStart_eq hlt, decode_addEntry, Option.some.injEq, Prod.mk.injEq] at hdec
    obtain ⟨rfl, rfl⟩ := hdec
    exact ⟨by rw [hslot r hr, hoff r hr], hindex⟩
  · rintro ⟨hslot, hindex⟩
    refine ⟨_, gotpltAddress + BitVec.ofNat 64 ((k + 3) * 8), _, makePLTCode_entry hk, ?_, ⟨r, hr⟩,
      fun r' hr' => (hoff r' hr').symm, hindex⟩
    rw [entryStart_eq hlt, decode_addEntry, hslot]

/-- The PLT is right exactly when the entries that are not bound lazily come last, and the
offsets to the slots fit into their 32 bits. -/
theorem global_plt_right_iff (obj : TrampolinePtr → PLTTrampoline) (dynsymIndex : ExternalSymbol → BitVec 64)
    (program : List (List TrampolinePtr)) (hnodup : program.flatten.Nodup) (made : PLTEntries)
    (hmade : collectPLTEntries obj program = some made) :
    PLTRight obj dynsymIndex made ↔
      (unresolved obj program).Pairwise (fun a b => (obj a).pltGot = true → (obj b).pltGot = true) ∧
      (unresolved obj program).length ≤ 268304385 := by
  obtain ⟨hindexed, hentries⟩ := collect_spec hmade
  have hnodup' : made.entries.Nodup := hentries ▸ hnodup.filter _
  rw [← hentries]
  constructor
  · intro h
    have hlen : made.entries.length ≤ 268304385 := by
      by_contra hlen
      have hk : made.entries[268304385]? = some made.entries[268304385] := List.getElem?_eq_getElem _
      exact slotOffset_overflows ((entry_iff hnodup' hk).1 (h.entry _ _ hk)).1
    refine ⟨List.pairwise_iff_getElem.2 fun i j hi hj hij hgot => ?_, hlen⟩
    have hk : made.entries[j]? = some made.entries[j] := List.getElem?_eq_getElem hj
    by_contra hlazy
    rw [Bool.not_eq_true] at hlazy
    have hindex := ((entry_iff hnodup' hk).1 (h.entry _ _ hk)).2 hlazy
    rw [toNat_pushed (by omega), relaPlt_index_iff hnodup' hk hlazy] at hindex
    have hfalse := hindex made.entries[i] (List.mem_take_iff_getElem.2 ⟨i, by omega, rfl⟩)
    rw [hgot] at hfalse
    cases hfalse
  · rintro ⟨hpair, hlen⟩
    refine ⟨fun k plt hk => (entry_iff hnodup' hk).2 ⟨?_, fun hlazy => ?_⟩, fun _ _ => redirect_right hindexed⟩
    · exact slotOffset_fits (by have := (List.getElem?_eq_some_iff.1 hk).1; omega)
    · obtain ⟨hlt, hplt⟩ := List.getElem?_eq_some_iff.1 hk
      rw [toNat_pushed (by omega), relaPlt_index_iff hnodup' hk hlazy]
      intro p hp
      obtain ⟨i, hi, rfl⟩ := List.mem_take_iff_getElem.1 hp
      have hgot := List.pairwise_iff_getElem.1 hpair i k (by omega) hlt (by omega)
      rw [hplt, hlazy] at hgot
      simpa using hgot

/-- Two trampolines of one module; the first one is not bound lazily. -/
def sampleTrampolines (plt : TrampolinePtr) : PLTTrampoline := ⟨some ⟨"f", false⟩, plt == 0⟩

theorem global_plt_right_sample :
    (PLTRight sampleTrampolines (fun _ => 1) ⟨[1, 0], Function.update (Function.update (fun _ => 0) 1 1) 0 2⟩ ↔
      (unresolved sampleTrampolines [[1], [0]]).Pairwise
        (fun a b => (sampleTrampolines a).pltGot = true → (sampleTrampolines b).pltGot = true) ∧
      (unresolved sampleTrampolines [[1], [0]]).length ≤ 268304385) :=
  global_plt_right_iff sampleTrampolines (fun _ => 1) [[1], [0]] (by decide) _ rfl

/-- The second entry pushes one, but its relocation is the only one of `.rela.plt`. -/
theorem pltgot_shifts_pushed_index :
    ¬ ∀ (obj : TrampolinePtr → PLTTrampoline) (dynsymIndex : ExternalSymbol → BitVec 64)
      (program : List (List TrampolinePtr)) (made : PLTEntries), program.flatten.Nodup →
      collectPLTEntries obj program = some made → PLTRight obj dynsymIndex made := by
  intro h
  have hright := h sampleTrampolines (fun _ => 1) [[0, 1]] _ (by decide) rfl
  have hlazy := ((entry_iff (by decide) rfl).1 (hright.entry 1 1 rfl)).2 rfl
  rw [toNat_pushed (by decide), relaPlt_index_iff (by decide) rfl rfl] at hlazy
  have hfirst := hlazy 0 (by decide)
  revert hfirst
  decide

end Relocations

end Egalito.Generate
