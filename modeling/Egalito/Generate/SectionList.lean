import Egalito.Lib.Ordered
import Egalito.Lib.Run
/-!
# Sections of the generated file

A `Section` of `generate/section.h` and what it can hold, the `DeferredValue`s of
`generate/deferred.h`. The size of a value is known before it is written; its
bytes may depend on the offsets that the sections get in the meantime, since
the functions of a `DeferredValueImpl` are only called by `writeTo`.
-/

open Egalito.Lib

namespace Egalito.Generate

/-- The address of a `Section`. -/
abbrev SectionPtr := Nat

/-- `Section::offset` of every section, a `size_t`. -/
abbrev Offsets := SectionPtr → BitVec 64

/-- A `DeferredValueImpl<ElfType>`, where `ElfType` has `n` bytes. -/
structure DeferredValueImpl (n : Nat) where
  elfValue : Vector UInt8 n
  functionList : List (Offsets → Vector UInt8 n → Vector UInt8 n)

/-- The functions patch the value one after the other, then its bytes are written. -/
def DeferredValueImpl.writeTo {n : Nat} (offsets : Offsets) (v : DeferredValueImpl n) : List UInt8 :=
  (v.functionList.foldl (fun bytes func => func offsets bytes) v.elfValue).toList

/-- The contents whose size is fixed when they are made. A `DeferredString`,
`DeferredStringList` and `DeferredIntegerList` are their bytes; all values of a list have
one type, so one size. -/
inductive PlainValue
  | impl {n : Nat} (value : DeferredValueImpl n)
  | list {n : Nat} (valueList : List (DeferredValueImpl n))
  | string (value : List UInt8)
  | initArray (array : List (Offsets → BitVec 64))

inductive DeferredValue
  | plain (value : PlainValue)
  | pagePadding (previousSection : SectionPtr) (desiredOffset : BitVec 64) (isIsolatedPadding : Bool)

structure Section where
  name : String
  hasHeader : Bool
  content : Option DeferredValue

/-! ## The list of sections and its indices

`SectionList` gives an index to the sections that get a header. An index is
right when the header table, which starts with the null header and goes on in
the order of the list, has the section at that place. `addSection` counts from
one and keeps this; `insert` numbers all sections again, from zero.
-/

structure SectionList where
  sectionMap : String → Option SectionPtr
  sectionIndexMap : SectionPtr → Option Nat
  sections : List SectionPtr
  sectionCount : Nat

/-- The count starts at one, to skip the null header. -/
def SectionList.empty : SectionList := ⟨fun _ => none, fun _ => none, [], 1⟩

/-- `section->getName()[0] != '='`. -/
def isAssignedAnIndex (sec : Section) : Bool := sec.name.toList.head? != some '='

namespace SectionList

variable (obj : SectionPtr → Section) (l : SectionList)

def addSection (p : SectionPtr) : SectionList :=
  let l := { l with sectionMap := Function.update l.sectionMap (obj p).name (some p) }
  let l := if isAssignedAnIndex (obj p) then
      { l with sectionIndexMap := Function.update l.sectionIndexMap p (some l.sectionCount)
               sectionCount := l.sectionCount + 1 }
    else l
  { l with sections := l.sections ++ [p] }

/-- The loop of `insert` over all sections, with the next index. -/
def renumber : List SectionPtr → (SectionPtr → Option Nat) × Nat → (SectionPtr → Option Nat) × Nat
  | [], acc => acc
  | p :: ps, (indexMap, i) =>
    if isAssignedAnIndex (obj p) then renumber ps (Function.update indexMap p (some i), i + 1)
    else renumber ps (indexMap, i)

/-- The iterator is the place of an element or the end. -/
def insert (it : Nat) (p : SectionPtr) : Option SectionList :=
  if it ≤ l.sections.length then
    let sections := l.sections.insertIdx it p
    some { l with
      sectionMap := Function.update l.sectionMap (obj p).name (some p)
      sections := sections
      sectionIndexMap := (renumber obj sections (fun _ => none, 0)).1 }
  else none

/-- `operator []` of the map gives zero for a section without an index. -/
def indexOf (p : SectionPtr) : Nat := (l.sectionIndexMap p).getD 0

def indexOfName (name : String) : Int :=
  match l.sectionMap name with
  | some p => l.indexOf p
  | none => -1

/-- The headers that `makeShdrTable` emits; the null header is `none`. -/
def shdrTable : List (Option SectionPtr) := none :: (l.sections.filter fun p => (obj p).hasHeader).map some

end SectionList

inductive ListCall
  | addSection (p : SectionPtr)
  | insert (it : Nat) (p : SectionPtr)

namespace ListCall

def ptr : ListCall → SectionPtr
  | addSection p => p
  | insert _ p => p

variable (obj : SectionPtr → Section)

def run (l : SectionList) : ListCall → Option SectionList
  | addSection p => some (l.addSection obj p)
  | insert it p => l.insert obj it p

def runAll (calls : List ListCall) : Option SectionList := calls.foldlM (run obj) .empty

end ListCall

/-! ## What an index has to name -/

namespace SectionList

variable (obj : SectionPtr → Section) (l : SectionList)

def headers : List SectionPtr := l.sections.filter fun p => (obj p).hasHeader

/-- Both functions `indexOf` give the place of the header in the table. -/
structure IndicesRight : Prop where
  ofPtr : ∀ p ∈ l.sections, (obj p).hasHeader = true → l.indexOf p = (l.shdrTable obj).idxOf (some p)
  ofName : ∀ name p, l.sectionMap name = some p → (obj p).hasHeader = true →
    l.indexOfName name = (l.shdrTable obj).idxOf (some p)

/-- The generators name a section with a leading `=` exactly when it gets no header. -/
def Named (p : SectionPtr) : Prop := (obj p).hasHeader = isAssignedAnIndex (obj p)

/-- No section of the list has a header, and `p` has none. -/
def Headerless (p : SectionPtr) : Prop := (obj p).hasHeader = false ∧ ∀ q ∈ l.sections, (obj q).hasHeader = false

end SectionList

/-- A call of `insert` meets no section with a header. -/
def ListCall.Harmless (obj : SectionPtr → Section) (l : SectionList) : ListCall → Prop
  | addSection _ => True
  | insert _ p => l.Headerless obj p

namespace SectionList

variable {obj : SectionPtr → Section} {l : SectionList}

theorem renumber_eq (ps : List SectionPtr) (acc : (SectionPtr → Option Nat) × Nat) : renumber obj ps acc =
    (ps.filter fun p => isAssignedAnIndex (obj p)).foldl
      (fun acc p => (Function.update acc.1 p (some acc.2), acc.2 + 1)) acc := by
  induction ps generalizing acc with
  | nil => rfl
  | cons p ps ih =>
    obtain ⟨indexMap, i⟩ := acc
    by_cases hp : isAssignedAnIndex (obj p) = true
    · rw [renumber, if_pos hp, ih, List.filter_cons_of_pos (by simpa using hp), List.foldl_cons]
    · rw [renumber, if_neg hp, ih, List.filter_cons_of_neg (by simpa using hp)]

/-- `insert` numbers the sections with a header from zero. -/
theorem renumber_numbered {ps : List SectionPtr} (hnamed : ∀ p ∈ ps, Named obj p) :
    (renumber obj ps (fun _ => none, 0)).1 = numbered (ps.filter fun p => (obj p).hasHeader) := by
  rw [renumber_eq, List.filter_congr fun p hp => (hnamed p hp).symm]
  rfl

variable (obj l) in
/-- What `addSection` keeps: the sections with a header are numbered from one. -/
structure Counted : Prop where
  nodup : l.sections.Nodup
  named : ∀ p ∈ l.sections, Named obj p
  found : ∀ name p, l.sectionMap name = some p → p ∈ l.sections
  indexMap : ∀ p, l.sectionIndexMap p = (numbered (l.headers obj) p).map (· + 1)
  count : l.sectionCount = (l.headers obj).length + 1

theorem counted_empty : Counted obj .empty :=
  ⟨List.nodup_nil, by simp [empty], by simp [empty], fun _ => rfl, rfl⟩

theorem mem_headers {p : SectionPtr} : p ∈ l.headers obj ↔ p ∈ l.sections ∧ (obj p).hasHeader = true :=
  List.mem_filter

theorem idxOf_shdrTable {p : SectionPtr} : (l.shdrTable obj).idxOf (some p) = (l.headers obj).idxOf p + 1 := by
  change (none :: (l.headers obj).map some).idxOf (some p) = _
  rw [List.idxOf_cons_ne _ (by simp)]
  congr 1
  induction l.headers obj with
  | nil => rfl
  | cons q qs ih =>
    by_cases hq : q = p
    · simp [hq]
    · rw [List.map_cons, List.idxOf_cons_ne _ (by simpa using hq), ih, List.idxOf_cons_ne _ hq]

theorem indexOf_numbered {hs : List SectionPtr} (hnodup : hs.Nodup) {p : SectionPtr} (hp : p ∈ hs) :
    numbered hs p = some (hs.idxOf p) := by
  obtain ⟨i, hi, rfl⟩ := List.getElem_of_mem hp
  rw [numbered_getElem hnodup hi, hnodup.idxOf_getElem]

/-- A lookup by name finds a section of the list, so it is right when the lookup by pointer is. -/
theorem indicesRight_of_ptr (hfound : ∀ name p, l.sectionMap name = some p → p ∈ l.sections)
    (hptr : ∀ p ∈ l.sections, (obj p).hasHeader = true → l.indexOf p = (l.shdrTable obj).idxOf (some p)) :
    l.IndicesRight obj := by
  refine ⟨hptr, fun name p hname hp => ?_⟩
  rw [indexOfName, hname, ← hptr p (hfound name p hname) hp]

theorem Counted.indicesRight (h : Counted obj l) : l.IndicesRight obj := by
  refine indicesRight_of_ptr h.found fun p hp hheader => ?_
  have hnodup : (l.headers obj).Nodup := h.nodup.filter _
  have hnum := indexOf_numbered hnodup (mem_headers.2 ⟨hp, hheader⟩)
  rw [indexOf, h.indexMap, hnum, idxOf_shdrTable]
  rfl

/-! ## One call -/

@[simp]
theorem addSection_sections (p : SectionPtr) : (l.addSection obj p).sections = l.sections ++ [p] := by
  unfold addSection
  split <;> rfl

@[simp]
theorem addSection_sectionMap (p : SectionPtr) :
    (l.addSection obj p).sectionMap = Function.update l.sectionMap (obj p).name (some p) := by
  unfold addSection
  split <;> rfl

/-- The map of names still leads to sections of the list, when the new one has joined it. -/
theorem found_update (hfound : ∀ name q, l.sectionMap name = some q → q ∈ l.sections) {p : SectionPtr}
    {sections : List SectionPtr} (hmem : ∀ q, q ∈ sections ↔ q = p ∨ q ∈ l.sections) (name : String) (q : SectionPtr)
    (hq : Function.update l.sectionMap (obj p).name (some p) name = some q) : q ∈ sections := by
  rw [hmem]
  by_cases hname : name = (obj p).name
  · rw [hname, Function.update_self, Option.some.injEq] at hq
    exact Or.inl hq.symm
  · rw [Function.update_of_ne hname] at hq
    exact Or.inr (hfound name q hq)

theorem named_of_mem (hnamed : ∀ q ∈ l.sections, Named obj q) {p : SectionPtr} (hp : Named obj p)
    {sections : List SectionPtr} (hmem : ∀ q, q ∈ sections ↔ q = p ∨ q ∈ l.sections) :
    ∀ q ∈ sections, Named obj q := fun q hq =>
  ((hmem q).1 hq).elim (fun he : q = p => he ▸ hp) (hnamed q)

theorem Counted.addSection (h : Counted obj l) {p : SectionPtr} (hp : p ∉ l.sections) (hnamed : Named obj p) :
    Counted obj (l.addSection obj p) := by
  have hmem : ∀ q, q ∈ l.sections ++ [p] ↔ q = p ∨ q ∈ l.sections := fun q => by
    rw [List.mem_append, List.mem_singleton, or_comm]
  have hnodup : (l.sections ++ [p]).Nodup := by
    rw [List.nodup_append_comm]
    exact List.nodup_cons.2 ⟨hp, h.nodup⟩
  have hheaders : (l.addSection obj p).headers obj = l.headers obj ++ [p].filter fun p => (obj p).hasHeader := by
    rw [headers, addSection_sections, List.filter_append]
    rfl
  refine ⟨by simpa using hnodup, by simpa using named_of_mem h.named hnamed hmem,
    by simpa using found_update h.found hmem, fun q => ?_, ?_⟩ <;> rw [hheaders]
  · by_cases hassigned : isAssignedAnIndex (obj p) = true
    · rw [List.filter_cons_of_pos (by rw [hnamed]; exact hassigned), List.filter_nil, numbered_concat]
      by_cases hq : q = p
      · simp [SectionList.addSection, hassigned, hq, h.count]
      · simp [SectionList.addSection, hassigned, Function.update_of_ne hq, h.indexMap]
    · rw [List.filter_cons_of_neg (by rw [hnamed]; exact hassigned), List.filter_nil, List.append_nil]
      simpa [SectionList.addSection, hassigned] using h.indexMap q
  · by_cases hassigned : isAssignedAnIndex (obj p) = true
    · rw [List.filter_cons_of_pos (by rw [hnamed]; exact hassigned)]
      simp [SectionList.addSection, hassigned, h.count]
    · rw [List.filter_cons_of_neg (by rw [hnamed]; exact hassigned)]
      simpa [SectionList.addSection, hassigned] using h.count

theorem insert_eq {it : Nat} {p : SectionPtr} {l' : SectionList} (h : l.insert obj it p = some l') :
    l'.sectionMap = Function.update l.sectionMap (obj p).name (some p) ∧ (l'.sections).Perm (p :: l.sections) ∧
      l'.sectionIndexMap = (renumber obj l'.sections (fun _ => none, 0)).1 ∧ l'.sectionCount = l.sectionCount := by
  unfold insert at h
  split at h
  case isTrue hit =>
    cases h
    exact ⟨rfl, List.perm_insertIdx _ _ hit, rfl, rfl⟩
  case isFalse => cases h

/-- Among sections without headers there is nothing to number. -/
theorem Counted.insert (h : Counted obj l) {it : Nat} {p : SectionPtr} (hp : p ∉ l.sections)
    (hnamed : Named obj p) (hnone : l.Headerless obj p) {l' : SectionList} (hrun : l.insert obj it p = some l') :
    Counted obj l' := by
  obtain ⟨hmap, hperm, hindex, hcount⟩ := insert_eq hrun
  have hmem : ∀ q, q ∈ l'.sections ↔ q = p ∨ q ∈ l.sections := fun q => by
    rw [hperm.mem_iff, List.mem_cons]
  have hnames := named_of_mem h.named hnamed hmem
  have hno : l.headers obj = [] := List.filter_eq_nil_iff.2 fun q hq => by simp [hnone.2 q hq]
  have hno' : l'.headers obj = [] := List.filter_eq_nil_iff.2 fun q hq => by
    rcases (hmem q).1 hq with rfl | hq
    · simp [hnone.1]
    · simp [hnone.2 q hq]
  refine ⟨hperm.nodup_iff.2 (List.nodup_cons.2 ⟨hp, h.nodup⟩), hnames, hmap ▸ found_update h.found hmem,
    fun q => ?_, ?_⟩
  · rw [hindex, renumber_numbered hnames]
    change numbered (l'.headers obj) q = _
    rw [hno']
    rfl
  · rw [hcount, h.count, hno, hno']

/-- Otherwise the first section with a header gets the index of the null header. -/
theorem Counted.not_indicesRight (h : Counted obj l) {it : Nat} {p : SectionPtr} (hp : p ∉ l.sections)
    (hnamed : Named obj p) (hsome : ¬ l.Headerless obj p) {l' : SectionList} (hrun : l.insert obj it p = some l') :
    ¬ l'.IndicesRight obj := by
  obtain ⟨hmap, hperm, hindex, hcount⟩ := insert_eq hrun
  have hmem : ∀ q, q ∈ l'.sections ↔ q = p ∨ q ∈ l.sections := fun q => by
    rw [hperm.mem_iff, List.mem_cons]
  have hnodup : (l'.headers obj).Nodup := (hperm.nodup_iff.2 (List.nodup_cons.2 ⟨hp, h.nodup⟩)).filter _
  have hne : l'.headers obj ≠ [] := fun hno => hsome <| by
    have hall := List.filter_eq_nil_iff.1 hno
    exact ⟨by simpa using hall p ((hmem p).2 (Or.inl rfl)),
      fun q hq => by simpa using hall q ((hmem q).2 (Or.inr hq))⟩
  obtain ⟨q, qs, hq⟩ := List.exists_cons_of_ne_nil hne
  have hmemq : q ∈ l'.headers obj := by rw [hq]; exact List.mem_cons_self
  intro hright
  have hzero : l'.indexOf q = 0 := by
    rw [indexOf, hindex, renumber_numbered (named_of_mem h.named hnamed hmem)]
    change (numbered (l'.headers obj) q).getD 0 = 0
    rw [indexOf_numbered hnodup hmemq, hq, List.idxOf_cons_self]
    rfl
  have hindexq := hright.ofPtr q (mem_headers.1 hmemq).1 (mem_headers.1 hmemq).2
  rw [hzero, idxOf_shdrTable] at hindexq
  omega

end SectionList

/-! ## Runs -/

namespace ListCall

open SectionList

variable {obj : SectionPtr → Section}

theorem run_sections {l l' : SectionList} {c : ListCall} (h : c.run obj l = some l') :
    l'.sections.Perm (c.ptr :: l.sections) := by
  cases c with
  | addSection p =>
    cases h
    rw [addSection_sections]
    exact List.perm_append_singleton p l.sections
  | insert it p => exact (insert_eq h).2.1

/-- A call that keeps the numbering is a harmless one, and only such a call leaves right indices. -/
theorem run_cases {l l' : SectionList} {c : ListCall} (hl : Counted obj l) (hc : c.ptr ∉ l.sections)
    (hnamed : Named obj c.ptr) (hrun : c.run obj l = some l') :
    (c.Harmless obj l ∧ Counted obj l') ∨ (¬ c.Harmless obj l ∧ ¬ l'.IndicesRight obj) := by
  cases c with
  | addSection p =>
    cases hrun
    exact Or.inl ⟨trivial, hl.addSection hc hnamed⟩
  | insert it p =>
    by_cases hnone : l.Headerless obj p
    · exact Or.inl ⟨hnone, hl.insert hc hnamed hnone hrun⟩
    · exact Or.inr ⟨hnone, hl.not_indicesRight hc hnamed hnone hrun⟩

theorem indices_along {calls : List ListCall} {l l' : SectionList} (hl : Counted obj l)
    (hnew : ∀ c ∈ calls, c.ptr ∉ l.sections) (hnodup : (calls.map ptr).Nodup)
    (hnamed : ∀ c ∈ calls, Named obj c.ptr) (hrun : calls.foldlM (run obj) l = some l') :
    (∀ done rest m, calls = done ++ rest → done.foldlM (run obj) l = some m → m.IndicesRight obj) ↔
      Along (run obj) (fun l c => c.Harmless obj l) l calls := by
  induction calls generalizing l with
  | nil =>
    refine iff_of_true (fun done rest m hcalls hm => ?_) trivial
    obtain ⟨rfl, rfl⟩ := List.append_eq_nil_iff.1 hcalls.symm
    cases hm
    exact hl.indicesRight
  | cons c calls ih =>
    rw [List.foldlM_cons, Option.bind_eq_bind, Option.bind_eq_some_iff] at hrun
    obtain ⟨l₁, h₁, hrun⟩ := hrun
    rw [List.map_cons, List.nodup_cons] at hnodup
    have hcases := run_cases hl (hnew c List.mem_cons_self) (hnamed c List.mem_cons_self) h₁
    have hnew₁ : ∀ d ∈ calls, d.ptr ∉ l₁.sections := fun d hd hmem => by
      rw [(run_sections h₁).mem_iff, List.mem_cons] at hmem
      rcases hmem with he | hmem
      · exact hnodup.1 (he ▸ List.mem_map_of_mem hd)
      · exact hnew d (List.mem_cons_of_mem _ hd) hmem
    have hstep : ∀ done, (c :: done).foldlM (run obj) l = done.foldlM (run obj) l₁ := fun done => by
      rw [List.foldlM_cons, h₁]
      rfl
    have hih := fun h => ih h hnew₁ hnodup.2 (fun d hd => hnamed d (List.mem_cons_of_mem _ hd)) hrun
    constructor
    · intro hall
      have hright := hall [c] calls l₁ rfl (hstep [])
      rcases hcases with ⟨hok, hl₁⟩ | ⟨-, hbad⟩
      · refine ⟨hok, fun l₂ h₂ => ?_⟩
        obtain rfl : l₁ = l₂ := Option.some.inj (h₁.symm.trans h₂)
        exact (hih hl₁).1 fun done rest m hcalls hm =>
          hall (c :: done) rest m (by rw [hcalls]; rfl) (by rw [hstep]; exact hm)
      · exact absurd hright hbad
    · rintro ⟨hok, halong⟩ done rest m hcalls hm
      rcases hcases with ⟨-, hl₁⟩ | ⟨hbad, -⟩
      · cases done with
        | nil =>
          cases hm
          exact hl.indicesRight
        | cons d done =>
          obtain ⟨rfl, hrest⟩ := List.cons.inj hcalls
          exact (hih hl₁).2 (halong l₁ h₁) done rest m hrest (by rw [← hstep]; exact hm)
      · exact absurd hok hbad

variable (obj) in
/-- In a run of calls with distinct sections, named as the generators name them, every
list has right indices exactly when no `insert` meets a section with a header. -/
theorem indices_right_iff (calls : List ListCall) (l : SectionList) (hnodup : (calls.map ptr).Nodup)
    (hnamed : ∀ c ∈ calls, Named obj c.ptr) (hrun : runAll obj calls = some l) :
    (∀ done rest m, calls = done ++ rest → runAll obj done = some m → m.IndicesRight obj) ↔
      Along (run obj) (fun l c => c.Harmless obj l) .empty calls :=
  indices_along counted_empty (by simp [SectionList.empty]) hnodup hnamed hrun

def sampleSections (p : SectionPtr) : Section :=
  if p = 0 then ⟨"=elfheader", false, none⟩ else if p = 1 then ⟨".text", true, none⟩ else ⟨".data", true, none⟩

theorem indices_right_sample :
    (∀ done rest m, [addSection 0, addSection 1] = done ++ rest → runAll sampleSections done = some m →
      m.IndicesRight sampleSections) ↔
    Along (run sampleSections) (fun l c => c.Harmless sampleSections l) .empty [addSection 0, addSection 1] :=
  indices_right_iff sampleSections [addSection 0, addSection 1] _ (by decide)
    (by unfold Named; decide) rfl

/-- With `.data` put before `.text`, `indexOf` gives the null header for `.data`, which is
at place one, and `.data` for `.text`. -/
theorem insert_numbers_from_zero :
    ¬ ∀ (obj : SectionPtr → Section) (calls : List ListCall) (l : SectionList), (calls.map ptr).Nodup →
      (∀ c ∈ calls, Named obj c.ptr) → runAll obj calls = some l → l.IndicesRight obj := by
  intro h
  have hright := h sampleSections [addSection 0, addSection 1, insert 1 2] _ (by decide) (by unfold Named; decide) rfl
  have hdata := hright.ofPtr 2 (by decide) (by decide)
  revert hdata
  decide

end ListCall

end Egalito.Generate
