import Egalito.GnuHash.SymbolTable
import Egalito.Lib.Run
import Mathlib
/-!
# The order of a symbol table

`SymbolInTable::operator <` compares ranks of a linear order, so a
`DeferredMap` stays sorted and its vector, map and reverse map agree. The
counter of the symbols before the global ones runs beside that.
-/

open Egalito.Lib

namespace Egalito.GnuHash

/-! ## The order of the keys -/

/-- Bytes are compared as unsigned numbers. -/
def byteValues (bytes : List UInt8) : List Nat := bytes.map UInt8.toNat

theorem strcmp_spec (a b : List UInt8) :
    (strcmp a b = .lt ↔ byteValues a < byteValues b) ∧ (strcmp a b = .eq ↔ byteValues a = byteValues b) ∧
      (strcmp a b = .gt ↔ byteValues b < byteValues a) := by
  unfold byteValues
  induction a generalizing b with
  | nil => cases b <;> simp [strcmp]
  | cons x a ih =>
    cases b with
    | nil => simp [strcmp]
    | cons y b =>
      unfold strcmp
      simp only [UInt8.lt_iff_toNat_lt, List.map_cons, List.cons_lt_cons_iff, List.cons.injEq]
      rcases lt_trichotomy x.toNat y.toNat with h | h | h
      · simp [h, h.ne, h.not_gt, h.ne']
      · simpa [h] using ih b
      · simp [h, h.ne, h.not_gt, h.ne']

namespace SymbolInTable

abbrev Rank := Nat ×ₗ Nat ×ₗ WithBot (List Nat ×ₗ Int)

/-- What `operator <` compares. -/
def rank (key : SymbolInTable) : Rank :=
  toLex (key.tableIndex, toLex (key.type.toNat, match key.sym with
    | none => ⊥
    | some sym => (toLex (byteValues sym.name.bytes, sectionOf sym) : List Nat ×ₗ Int)))

theorem lt_iff (a b : SymbolInTable) : lt a b = true ↔ rank a < rank b := by
  unfold lt rank
  rw [Prod.Lex.toLex_lt_toLex, Prod.Lex.toLex_lt_toLex]
  rcases lt_trichotomy a.tableIndex b.tableIndex with hi | hi | hi
  · simp [hi]
  · rcases lt_trichotomy a.type.toNat b.type.toNat with ht | ht | ht
    · simp [hi, ht]
    · cases ha : a.sym with
      | none => cases hb : b.sym <;> simp [hi, ht]
      | some s =>
        cases hb : b.sym with
        | none => simp [hi, ht]
        | some u =>
          obtain ⟨h₁, h₂, h₃⟩ := strcmp_spec s.name.bytes u.name.bytes
          rw [WithBot.coe_lt_coe, Prod.Lex.toLex_lt_toLex]
          cases hc : strcmp s.name.bytes u.name.bytes with
          | lt => simp [hi, ht, hc, h₁.1 hc]
          | eq =>
            have := h₂.1 hc
            simp [hi, ht, hc, this]
          | gt =>
            have := h₃.1 hc
            simp [hi, ht, hc, this.not_gt, this.ne']
    · simp [hi, ht, ht.not_gt, ht.ne']
  · simp [hi, hi.not_gt, hi.ne']

end SymbolInTable

open SymbolInTable

theorem sameKey_iff (a b : SymbolInTable) : DeferredMap.sameKey a b = true ↔ rank a = rank b := by
  unfold DeferredMap.sameKey
  rw [Bool.and_eq_true, Bool.not_eq_true', Bool.not_eq_true', ← Bool.not_eq_true, ← Bool.not_eq_true, lt_iff, lt_iff,
    not_lt, not_lt]
  exact ⟨fun h => le_antisymm h.2 h.1, fun h => ⟨h.ge, h.le⟩⟩

/-! ## The map -/

namespace DeferredMap

variable {m : DeferredMap} {key : SymbolInTable} {value : Pointer}

/-- The vector and both maps hold the same values, in the order of the keys. -/
structure Wf (m : DeferredMap) : Prop where
  ordered : m.valueMap.Pairwise fun a b => rank a.1 < rank b.1
  vector : m.valueList = m.valueMap.map Prod.snd
  reverse : ∀ e ∈ m.valueMap, m.reverseMap e.2 = e.1
  nodup : m.valueList.Nodup

theorem wf_empty : empty.Wf := by
  refine ⟨List.Pairwise.nil, rfl, ?_, List.nodup_nil⟩
  intro e he
  simp [empty] at he

theorem contains_eq_false : m.contains key = false ↔ ∀ e ∈ m.valueMap, rank e.1 ≠ rank key := by
  unfold contains find
  rw [Option.isSome_map, ← Bool.not_eq_true, List.find?_isSome]
  simp only [sameKey_iff, not_exists, not_and, ne_eq]

theorem find_of_mem (hm : m.Wf) {e : SymbolInTable × Pointer} (he : e ∈ m.valueMap) (hkey : rank key = rank e.1) :
    m.find key = some e.2 := by
  obtain ⟨l, r, hsplit⟩ := List.append_of_mem he
  have hl : ∀ x ∈ l, ¬ sameKey x.1 key = true := by
    intro x hx
    have hord := hm.ordered
    rw [hsplit, List.pairwise_append] at hord
    rw [sameKey_iff, hkey]
    exact (hord.2.2 x hx e List.mem_cons_self).ne
  unfold find
  have hhead : sameKey e.1 key = true := (sameKey_iff _ _).2 hkey.symm
  rw [hsplit, List.find?_append, List.find?_eq_none.2 hl, Option.none_or, List.find?_cons, hhead]
  rfl

/-- The vector is searched by keys, with the same result as in the map. -/
theorem Wf.insertSorted (hm : m.Wf) (key : SymbolInTable) (hvalue : value ∉ m.valueList) : (m.insertSorted key value).Wf := by
  unfold DeferredMap.insertSorted
  cases hc : m.contains key with
  | true => simpa using hm
  | false =>
    have hkeys := contains_eq_false.1 hc
    have hne : ∀ e ∈ m.valueMap, e.2 ≠ value := fun e he h =>
      hvalue (by rw [hm.vector]; exact List.mem_map.2 ⟨e, he, h⟩)
    have hvector : (insertUpper (fun a b => lt a.1 b.1) (key, value) m.valueMap).map Prod.snd =
        insertUpper (fun a b => lt (Function.update m.reverseMap value key a)
          (Function.update m.reverseMap value key b)) value m.valueList := by
      rw [hm.vector]
      refine insertUpper_map _ _ Prod.snd fun e he => ?_
      simp only [Function.update_self, Function.update_of_ne (hne e he), hm.reverse e he]
    simp only [Bool.false_eq_true, if_false]
    refine ⟨?_, hvector.symm, fun e he => ?_, ?_⟩
    · exact insertUpper_ordered (fun e : SymbolInTable × Pointer => rank e.1)
        (fun a b => lt_iff a.1 b.1) hm.ordered hkeys
    · dsimp only at he ⊢
      rcases List.mem_cons.1 ((insertUpper_perm _ _ _).mem_iff.1 he) with rfl | he
      · exact Function.update_self ..
      · rw [Function.update_of_ne (hne e he), hm.reverse e he]
    · dsimp only
      rw [(insertUpper_perm _ _ _).nodup_iff, List.nodup_cons]
      exact ⟨hvalue, hm.nodup⟩

theorem insertSorted_valueMap (hc : m.contains key = false) (value : Pointer) :
    (m.insertSorted key value).valueMap.Perm ((key, value) :: m.valueMap) := by
  unfold insertSorted
  simp only [hc, Bool.false_eq_true, if_false]
  exact insertUpper_perm _ _ _

theorem insertSorted_eq_self (hc : m.contains key = true) : m.insertSorted key value = m := by
  unfold insertSorted
  simp [hc]

end DeferredMap

/-! ## Insertions -/

/-- Sorted in front of the undefined and the global symbols. -/
def SymbolInTable.isLocal (key : SymbolInTable) : Bool := key.type.toNat < EntryType.undef.toNat

/-- What an insertion that makes a new value does; the map may still refuse it. -/
structure Adds (t t' : SymbolTable) (key : SymbolInTable) (symbol : ElfSym) : Prop where
  strtab : ∃ s, t'.strtab = t.strtab ++ s
  heap : t'.heap = t.heap ++ [symbol]
  map : t'.map = t.map.insertSorted key t.heap.length
  count : t'.firstGlobalIndex = t.firstGlobalIndex + if key.isLocal then 1 else 0
  tableIndex : key.tableIndex = 0
  null : key.sym = none ↔ key.type = .null
  value : key.type = .null ∨ key.type = .section → symbol.stValue = 0
  name : ∀ sym, key.sym = some sym → key.type ≠ .section →
    symbol.stName = BitVec.ofNat 32 t.strtab.length ∧ t'.strtab = t.strtab ++ (sym.name.bytes ++ [0])

theorem Adds.mem_valueMap {t t' : SymbolTable} {key : SymbolInTable} {symbol : ElfSym} (ha : Adds t t' key symbol)
    {e : SymbolInTable × Pointer} (he : e ∈ t'.map.valueMap) : e = (key, t.heap.length) ∨ e ∈ t.map.valueMap := by
  rw [ha.map] at he
  cases hc : t.map.contains key with
  | true =>
    rw [DeferredMap.insertSorted_eq_self hc] at he
    exact .inr he
  | false => exact List.mem_cons.1 ((DeferredMap.insertSorted_valueMap hc _).mem_iff.1 he)

/-- A null, section or PLT symbol is not added again. -/
def Insertion.Fresh (t : SymbolTable) : Insertion → Prop
  | nullSymbol => t.map.contains ⟨.null, none, 0⟩ = false
  | sectionSymbol sym => t.map.contains ⟨.section, some sym, 0⟩ = false
  | pltSymbol _ sym => t.map.contains ⟨.plt, some sym, 0⟩ = false
  | _ => True

section Cases

variable {t t' : SymbolTable}

theorem addNamed_cases {type : EntryType} (sym : Symbol) (shndx : BitVec 16) (value : Address) (size : BitVec 64)
    (htype : type = .undef ∨ type = .global) :
    t.addNamed type sym shndx value size = t ∨ ∃ key symbol, Adds t (t.addNamed type sym shndx value size) key symbol ∧
      t.map.contains key = false := by
  unfold SymbolTable.addNamed
  by_cases hbind : sym.bind = .local
  · simp only [hbind, if_true]
    cases hc : t.map.contains ⟨.local, some sym, 0⟩ with
    | true => exact .inl rfl
    | false =>
      refine .inr ⟨⟨.local, some sym, 0⟩, _, ⟨⟨_, rfl⟩, rfl, rfl, rfl, rfl, by simp, by simp, ?_⟩, hc⟩
      rintro _ ⟨⟩ -
      exact ⟨rfl, rfl⟩
  · simp only [hbind, if_false]
    cases hc : t.map.contains ⟨type, some sym, 0⟩ with
    | true => exact .inl rfl
    | false =>
      refine .inr ⟨⟨type, some sym, 0⟩, _, ⟨⟨_, rfl⟩, rfl, rfl, ?_, rfl, ?_, ?_, ?_⟩, hc⟩
      · rcases htype with rfl | rfl <;> rfl
      · rcases htype with rfl | rfl <;> simp
      · rcases htype with rfl | rfl <;> simp
      · rintro _ ⟨⟩ -
        exact ⟨rfl, rfl⟩

/-- An insertion leaves the map alone, or makes a new value for it. -/
theorem Insertion.run_cases {i : Insertion} (h : i.run t = some t') :
    ((∃ s, t' = { t with strtab := t.strtab ++ s }) ∧ i.Fresh t) ∨
      ∃ key symbol, Adds t t' key symbol ∧ (i.Fresh t ↔ t.map.contains key = false) ∧
        (t.map.contains key = true → key.isLocal = true) := by
  have hnamed : ∀ {type sym shndx value size}, type = .undef ∨ type = .global → i.Fresh t →
      t.addNamed type sym shndx value size = t' → ((∃ s, t' = { t with strtab := t.strtab ++ s }) ∧ i.Fresh t) ∨
        ∃ key symbol, Adds t t' key symbol ∧ (i.Fresh t ↔ t.map.contains key = false) ∧
          (t.map.contains key = true → key.isLocal = true) := by
    intro type sym shndx value size htype hfresh h
    rcases addNamed_cases (t := t) sym shndx value size htype with hsame | ⟨key, symbol, hadds, hc⟩
    · exact .inl ⟨⟨[], by rw [← h, hsame, List.append_nil]⟩, hfresh⟩
    · exact .inr ⟨key, symbol, h ▸ hadds, iff_of_true hfresh hc, fun h => by simp [hc] at h⟩
  cases i with
  | string data =>
    cases h
    exact .inl ⟨⟨_, rfl⟩, trivial⟩
  | nullSymbol =>
    cases h
    exact .inr ⟨⟨.null, none, 0⟩, _, ⟨⟨_, rfl⟩, rfl, rfl, rfl, rfl, by simp, fun _ => rfl, by simp⟩, Iff.rfl, fun _ => rfl⟩
  | sectionSymbol sym =>
    cases h
    exact .inr ⟨⟨.section, some sym, 0⟩, _, ⟨⟨[], (List.append_nil _).symm⟩, rfl, rfl, rfl, rfl, by simp,
      fun _ => rfl, by simp⟩, Iff.rfl, fun _ => rfl⟩
  | symbol func sym =>
    cases func with
    | none =>
      cases sym with
      | none => cases h
      | some sym => exact hnamed (.inl rfl) trivial (Option.some.inj h)
    | some func =>
      cases sym with
      | none => exact hnamed (.inr rfl) trivial (Option.some.inj h)
      | some sym => exact hnamed (.inr rfl) trivial (Option.some.inj h)
  | dataVarSymbol varSize sym address sectionIndex => exact hnamed (.inr rfl) trivial (Option.some.inj h)
  | globalVarSymbol sym address sectionIndex => exact hnamed (.inr rfl) trivial (Option.some.inj h)
  | pltSymbol plt sym =>
    cases h
    refine .inr ⟨⟨.plt, some sym, 0⟩, _, ⟨⟨_, rfl⟩, rfl, rfl, rfl, rfl, by simp, by simp, ?_⟩, Iff.rfl, fun _ => rfl⟩
    rintro _ ⟨⟩ -
    exact ⟨rfl, rfl⟩
  | undefinedSymbol sym => exact hnamed (.inl rfl) trivial (Option.some.inj h)

end Cases

/-! ## Runs of insertions -/

namespace SymbolTable

variable {t t' : SymbolTable}

/-- The keys, in the order of the vector. -/
def keys (t : SymbolTable) : List SymbolInTable := t.map.valueList.map t.map.getKey

/-- The map is well formed, its values are allocated, and no key has been given an index. -/
structure Wf (t : SymbolTable) : Prop where
  map : t.map.Wf
  allocated : ∀ value ∈ t.map.valueList, value < t.heap.length
  tableIndex : ∀ e ∈ t.map.valueMap, e.1.tableIndex = 0

theorem wf_empty (strtab : StringList) : (empty strtab).Wf := by
  refine ⟨DeferredMap.wf_empty, ?_, ?_⟩
  · intro value hvalue
    simp [empty, DeferredMap.empty] at hvalue
  · intro e he
    simp [empty, DeferredMap.empty] at he

theorem Wf.keys_eq (ht : t.Wf) : t.keys = t.map.valueMap.map Prod.fst := by
  unfold keys
  rw [ht.map.vector, List.map_map]
  exact List.map_congr_left fun e he => ht.map.reverse e he

theorem Wf.fresh_pointer (ht : t.Wf) : t.heap.length ∉ t.map.valueList := fun h =>
  lt_irrefl _ (ht.allocated _ h)

theorem Wf.adds {key : SymbolInTable} {symbol : ElfSym} (ht : t.Wf) (ha : Adds t t' key symbol) : t'.Wf := by
  have hmap : t'.map.Wf := ha.map ▸ ht.map.insertSorted key ht.fresh_pointer
  have hlen : t'.heap.length = t.heap.length + 1 := by rw [ha.heap, List.length_append, List.length_singleton]
  have hmem := fun e => ha.mem_valueMap (e := e)
  refine ⟨hmap, fun value hvalue => ?_, fun e he => ?_⟩
  · rw [hmap.vector] at hvalue
    obtain ⟨e, he, rfl⟩ := List.mem_map.1 hvalue
    rw [hlen]
    rcases hmem e he with rfl | he
    · exact Nat.lt_succ_self _
    · exact Nat.lt_succ_of_lt (ht.allocated e.2 (by rw [ht.map.vector]; exact List.mem_map_of_mem he))
  · rcases hmem e he with rfl | he
    · exact ha.tableIndex
    · exact ht.tableIndex e he

/-- How many symbols sort in front of the undefined and the global ones. -/
def localCount (t : SymbolTable) : Nat := t.keys.countP SymbolInTable.isLocal

theorem Wf.localCount_adds {key : SymbolInTable} {symbol : ElfSym} (ht : t.Wf) (ha : Adds t t' key symbol) :
    t'.localCount = t.localCount + if t.map.contains key then 0 else if key.isLocal then 1 else 0 := by
  have hkeys' := (ht.adds ha).keys_eq
  unfold localCount
  rw [hkeys', ht.keys_eq, ha.map]
  cases hc : t.map.contains key with
  | true => rw [DeferredMap.insertSorted_eq_self hc, if_pos rfl, Nat.add_zero]
  | false =>
    rw [((DeferredMap.insertSorted_valueMap hc _).map Prod.fst).countP_eq, List.map_cons, List.countP_cons]
    rfl

end SymbolTable

namespace Insertion

variable {t t' : SymbolTable} {i : Insertion}

theorem run_wf (ht : t.Wf) (h : i.run t = some t') : t'.Wf := by
  rcases run_cases h with ⟨⟨s, rfl⟩, -⟩ | ⟨key, symbol, ha, -, -⟩
  · exact ⟨ht.map, ht.allocated, ht.tableIndex⟩
  · exact ht.adds ha

/-- A refused symbol is counted all the same. -/
theorem run_count (ht : t.Wf) (h : i.run t = some t') :
    (i.Fresh t → t'.firstGlobalIndex + t.localCount = t.firstGlobalIndex + t'.localCount) ∧
      (¬ i.Fresh t → t'.firstGlobalIndex + t.localCount = t.firstGlobalIndex + t'.localCount + 1) := by
  rcases run_cases h with ⟨⟨s, rfl⟩, hfresh⟩ | ⟨key, symbol, ha, hfresh, hlocal⟩
  · exact ⟨fun _ => rfl, fun h => absurd hfresh h⟩
  · rw [ha.count, ht.localCount_adds ha]
    constructor
    · intro hf
      rw [hfresh.1 hf]
      simp only [Bool.false_eq_true, if_false]
      omega
    · intro hf
      have hc : t.map.contains key = true := Bool.eq_true_of_not_eq_false fun h => hf (hfresh.2 h)
      rw [hc, hlocal hc, if_pos rfl, if_pos rfl]
      omega

/-- The counter falls behind by the number of refused symbols, and never catches up. -/
theorem build_count {is : List Insertion} (ht : t.Wf) (h : t.build is = some t') :
    t.firstGlobalIndex + t'.localCount ≤ t'.firstGlobalIndex + t.localCount ∧
      (t'.firstGlobalIndex + t.localCount = t.firstGlobalIndex + t'.localCount ↔ Along run Fresh t is) := by
  induction is generalizing t with
  | nil =>
    cases h
    exact ⟨le_rfl, iff_of_true rfl trivial⟩
  | cons i is ih =>
    unfold SymbolTable.build at h
    rw [List.foldlM_cons, Option.bind_eq_bind, Option.bind_eq_some_iff] at h
    obtain ⟨t₁, h₁, h⟩ := h
    obtain ⟨hle, hiff⟩ := ih (run_wf ht h₁) h
    obtain ⟨hfresh, hstale⟩ := run_count ht h₁
    have hrest : Along run Fresh t (i :: is) ↔ i.Fresh t ∧ Along run Fresh t₁ is := by
      simp [Along, h₁]
    rw [hrest]
    by_cases hf : i.Fresh t
    · have := hfresh hf
      refine ⟨by omega, ?_⟩
      rw [and_iff_right hf, ← hiff]
      omega
    · have := hstale hf
      exact ⟨by omega, iff_of_false (by omega) fun h => hf h.1⟩

theorem build_wf {is : List Insertion} (ht : t.Wf) (h : t.build is = some t') : t'.Wf := by
  induction is generalizing t with
  | nil =>
    cases h
    exact ht
  | cons i is ih =>
    unfold SymbolTable.build at h
    rw [List.foldlM_cons, Option.bind_eq_bind, Option.bind_eq_some_iff] at h
    obtain ⟨t₁, h₁, h⟩ := h
    exact ih (run_wf ht h₁) h

end Insertion

/-- Sorted entries with different keys, each found under its key, and a counter that is
the index of the first global symbol. -/
structure SymbolTable.Consistent (t : SymbolTable) : Prop where
  sorted : t.keys.Pairwise fun a b => SymbolInTable.lt a b = true
  different : t.keys.Pairwise fun a b => DeferredMap.sameKey a b = false
  find : ∀ value ∈ t.map.valueList, t.map.find (t.map.getKey value) = some value
  count : t.firstGlobalIndex = t.localCount
  boundary : ∀ i key, t.keys[i]? = some key → (i < t.firstGlobalIndex ↔ key.isLocal = true)

theorem SymbolTable.Wf.consistent_iff {t : SymbolTable} (ht : t.Wf) :
    t.Consistent ↔ t.firstGlobalIndex = t.localCount := by
  refine ⟨fun h => h.count, fun hcount => ?_⟩
  have hranks : t.keys.Pairwise fun a b => rank a < rank b := by
    rw [ht.keys_eq, List.pairwise_map]
    exact ht.map.ordered
  refine ⟨hranks.imp fun h => (lt_iff _ _).2 h, ?_, ?_, hcount, fun i key hkey => ?_⟩
  · refine hranks.imp fun h => ?_
    rw [← Bool.not_eq_true, sameKey_iff]
    exact h.ne
  · intro value hvalue
    rw [ht.map.vector] at hvalue
    obtain ⟨e, he, rfl⟩ := List.mem_map.1 hvalue
    exact DeferredMap.find_of_mem ht.map he (by rw [DeferredMap.getKey, ht.map.reverse e he])
  · rw [hcount]
    refine lt_countP_iff ?_ hkey
    have hzero : ∀ key ∈ t.keys, key.tableIndex = 0 := by
      intro key hkey
      rw [ht.keys_eq] at hkey
      obtain ⟨e, he, rfl⟩ := List.mem_map.1 hkey
      exact ht.tableIndex e he
    refine hranks.imp_of_mem fun {a b} ha hb hlt hlocal => ?_
    unfold rank at hlt
    rw [Prod.Lex.toLex_lt_toLex, Prod.Lex.toLex_lt_toLex, hzero a ha, hzero b hb] at hlt
    simp only [isLocal, decide_eq_true_eq] at hlocal ⊢
    dsimp only at hlt
    omega

/-- In every run of insertions the entries stay sorted and are found under their keys. The
counter is the index of the first global symbol exactly when no null, section or PLT
symbol was added under a key that was there. -/
theorem first_global_index_exact {strtab : StringList} {is : List Insertion} {t : SymbolTable}
    (h : (SymbolTable.empty strtab).build is = some t) :
    t.Consistent ↔ Along Insertion.run Insertion.Fresh (SymbolTable.empty strtab) is := by
  have ht := SymbolTable.wf_empty strtab
  rw [(Insertion.build_wf ht h).consistent_iff, ← (Insertion.build_count ht h).2]
  simp [SymbolTable.localCount, SymbolTable.keys, SymbolTable.empty, DeferredMap.empty]

/-- The symbol of `puts`. -/
def putsSymbol : Symbol := ⟨⟨[112, 117, 116, 115], by decide⟩, .func, .global, 0, 0⟩

theorem noNul_f : (0 : UInt8) ∉ [102] := by decide

/-- The symbol of a local function `f`. -/
def localSymbol : Symbol := ⟨⟨[102], noNul_f⟩, .func, .local, 0, 0⟩

def sampleInsertions : List Insertion :=
  [.nullSymbol, .undefinedSymbol putsSymbol, .symbol (some ⟨localSymbol.name, 0x1000, 8⟩) (some localSymbol)]

theorem first_global_index_exact_sample :
    ∃ t, (SymbolTable.empty []).build sampleInsertions = some t ∧ t.Consistent := by
  have hsome : ((SymbolTable.empty []).build sampleInsertions).isSome := by decide +kernel
  obtain ⟨t, ht⟩ := Option.isSome_iff_exists.1 hsome
  refine ⟨t, ht, (first_global_index_exact ht).2 ⟨?_, fun t₁ _ => ⟨trivial, fun t₂ _ => ⟨trivial, fun _ _ => trivial⟩⟩⟩⟩
  rfl

/-- Two PLT entries of one symbol make one entry, which is counted twice. -/
theorem repeated_plt_symbol_miscounted : ∃ t, (SymbolTable.empty []).build
    [.nullSymbol, .pltSymbol (some ⟨0x1000, 16⟩) putsSymbol, .pltSymbol (some ⟨0x1010, 16⟩) putsSymbol] = some t ∧
    t.firstGlobalIndex = 3 ∧ t.keys.length = 2 ∧ ¬ t.Consistent := by
  have hfacts : ((SymbolTable.empty []).build [.nullSymbol, .pltSymbol (some ⟨0x1000, 16⟩) putsSymbol,
      .pltSymbol (some ⟨0x1010, 16⟩) putsSymbol]).map (fun t => (t.firstGlobalIndex, t.keys.length, t.localCount)) =
      some (3, 2, 2) := by decide +kernel
  obtain ⟨t, ht, heq⟩ := Option.map_eq_some_iff.1 hfacts
  simp only [Prod.mk.injEq] at heq
  obtain ⟨hfirst, hlength, hcount⟩ := heq
  refine ⟨t, ht, hfirst, hlength, fun hc => ?_⟩
  have := hc.count
  omega

end Egalito.GnuHash
