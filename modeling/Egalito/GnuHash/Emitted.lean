import Egalito.GnuHash.DynsymHash
import Egalito.GnuHash.Table
/-!
# The symbol table behind `.gnu.hash`

The pass splits the symbols at the first one with an address, puts the names
behind it into buckets and sorts the symbols by bucket. When no name of a
hashed symbol occurs twice, the emitted table is the part in front, followed by
the buckets.
-/

open Egalito.Lib

namespace Egalito.GnuHash

open SymbolInTable

/-! ## Names in the string list -/

/-- The name of a key at an index of the string list. -/
def NameAt (strtab : StringList) (index : Nat) (name : Name) : Prop := ∃ rest, strtab.drop index = name ++ 0 :: rest

theorem NameAt.cString {strtab : StringList} {index : Nat} {name : CString} (h : NameAt strtab index name.bytes) :
    strtab.cString index = name.bytes := by
  obtain ⟨rest, h⟩ := h
  unfold StringList.cString
  rw [h, List.takeWhile_append_of_pos, List.takeWhile_cons_of_neg, List.append_nil]
  · simp
  · intro c hc
    have : c ≠ 0 := fun h => name.noNul (h ▸ hc)
    simpa using this

theorem NameAt.append {strtab : StringList} {index : Nat} {name : Name} (h : NameAt strtab index name)
    (more : List UInt8) : NameAt (strtab ++ more) index name := by
  obtain ⟨rest, h⟩ := h
  refine ⟨rest ++ more, ?_⟩
  have hlt : index < strtab.length := by
    by_contra hge
    rw [List.drop_eq_nil_of_le (by omega)] at h
    simp at h
  rw [List.drop_append_of_le_length hlt.le, h, List.append_assoc, List.cons_append]

/-- What the insertions promise about the values: section and null symbols have no address,
the others have their name in the string list. -/
structure SymbolTable.Named (t : SymbolTable) : Prop where
  null : ∀ e ∈ t.map.valueMap, e.1.sym = none ↔ e.1.type = .null
  value : ∀ e ∈ t.map.valueMap, e.1.type = .null ∨ e.1.type = .section → (t.elfSym e.2).stValue = 0
  name : t.strtab.length < 2 ^ 32 → ∀ e ∈ t.map.valueMap, e.1.type ≠ .section → ∀ sym, e.1.sym = some sym →
    NameAt t.strtab (t.elfSym e.2).stName.toNat sym.name.bytes

section Named

variable {t t' : SymbolTable} {key : SymbolInTable} {symbol : ElfSym}

theorem SymbolTable.Named.adds (hn : t.Named) (ht : t.Wf) (ha : Adds t t' key symbol) : t'.Named := by
  have hold : ∀ e ∈ t.map.valueMap, t'.elfSym e.2 = t.elfSym e.2 := by
    intro e he
    have hlt := ht.allocated e.2 (by rw [ht.map.vector]; exact List.mem_map_of_mem he)
    unfold SymbolTable.elfSym
    rw [ha.heap, List.getD_eq_getElem?_getD, List.getElem?_append_left hlt, ← List.getD_eq_getElem?_getD]
  have hnew : t'.elfSym t.heap.length = symbol := by
    unfold SymbolTable.elfSym
    rw [ha.heap, List.getD_eq_getElem?_getD, List.getElem?_append_right le_rfl, Nat.sub_self]
    rfl
  have hmem := fun e => ha.mem_valueMap (e := e)
  refine ⟨fun e he => ?_, fun e he htype => ?_, fun hsize e he htype sym hsym => ?_⟩
  · rcases hmem e he with rfl | he
    · exact ha.null
    · exact hn.null e he
  · rcases hmem e he with rfl | he
    · rw [hnew]
      exact ha.value htype
    · rw [hold e he]
      exact hn.value e he htype
  · obtain ⟨s, hs⟩ := ha.strtab
    rcases hmem e he with rfl | he
    · obtain ⟨hindex, hstr⟩ := ha.name sym hsym htype
      have hlt : t.strtab.length < 2 ^ 32 := by
        rw [hs, List.length_append] at hsize
        omega
      rw [hnew, hindex, hstr, BitVec.toNat_ofNat, Nat.mod_eq_of_lt hlt]
      exact ⟨[], by rw [List.drop_left]⟩
    · rw [hold e he, hs]
      refine (hn.name ?_ e he htype sym hsym).append s
      rw [hs, List.length_append] at hsize
      omega

end Named

/-! ## The pass over the symbols -/

/-- The hash that decides the bucket of a name. -/
def bucketHash (name : Name) : Nat := (bfdElfGnuHash name).toNat

theorem foldl_visit_hashing (strtab : StringList) (symbols : List ElfSym) (n : Nat) (bs : BucketList) :
    symbols.foldl (HashPass.visit strtab) ⟨true, n, bs⟩ =
      ⟨true, n, (symbols.map fun s => strtab.cString s.stName.toNat).foldl
        (fun bs x => bs.modify (bucketHash x % bs.length) (· ++ [x])) bs⟩ := by
  induction symbols generalizing bs with
  | nil => rfl
  | cons s symbols ih =>
    rw [List.foldl_cons, List.map_cons, List.foldl_cons, ← ih]
    congr 1
    unfold HashPass.visit
    simp [bucketHash]

theorem foldl_visit (strtab : StringList) (symbols : List ElfSym) (n : Nat) (bs : BucketList) :
    let r := symbols.foldl (HashPass.visit strtab) ⟨false, n, bs⟩
    r.firstHashedSymbol = n + (symbols.takeWhile fun s => s.stValue = 0).length ∧
      r.bucketList = ((symbols.dropWhile fun s => s.stValue = 0).map fun s => strtab.cString s.stName.toNat).foldl
        (fun bs x => bs.modify (bucketHash x % bs.length) (· ++ [x])) bs := by
  induction symbols generalizing n with
  | nil => simp
  | cons s symbols ih =>
    by_cases hs : s.stValue = 0
    · have hvisit : HashPass.visit strtab ⟨false, n, bs⟩ s = ⟨false, n + 1, bs⟩ := by
        unfold HashPass.visit
        simp [hs]
      simp only [List.foldl_cons, hvisit]
      obtain ⟨h₁, h₂⟩ := ih (n + 1)
      refine ⟨?_, ?_⟩
      · rw [h₁]
        simp [hs]
        omega
      · rw [h₂]
        simp [hs]
    · have hvisit : HashPass.visit strtab ⟨false, n, bs⟩ s = HashPass.visit strtab ⟨true, n, bs⟩ s := by
        unfold HashPass.visit
        rw [if_pos hs, if_pos hs]
        rfl
      have htake : (s :: symbols).takeWhile (fun s => s.stValue = 0) = [] := by
        rw [List.takeWhile_cons_of_neg (by simpa using hs)]
      have hdrop : (s :: symbols).dropWhile (fun s => s.stValue = 0) = s :: symbols := by
        rw [List.dropWhile_cons_of_neg (by simpa using hs)]
      rw [htake, hdrop, List.foldl_cons, hvisit, ← List.foldl_cons, foldl_visit_hashing]
      exact ⟨rfl, rfl⟩

namespace SymbolTable

variable {t : SymbolTable}

/-- The symbols before the first one with an address. -/
def unhashed (t : SymbolTable) : List Pointer := t.map.valueList.takeWhile fun v => (t.elfSym v).stValue = 0

/-- The symbols from the first one with an address on. -/
def hashed (t : SymbolTable) : List Pointer := t.map.valueList.dropWhile fun v => (t.elfSym v).stValue = 0

theorem hashPass_spec (t : SymbolTable) : t.hashPass.firstHashedSymbol = t.unhashed.length ∧
    t.hashPass.bucketList = buckets 1011 bucketHash (t.hashed.map t.nameOf) := by
  obtain ⟨hfirst, hbuckets⟩ := foldl_visit t.strtab (t.map.valueList.map t.elfSym) 0 (List.replicate 1011 [])
  refine ⟨?_, ?_⟩
  · unfold hashPass HashPass.run
    rw [hfirst, List.takeWhile_map, List.length_map, Nat.zero_add]
    rfl
  · unfold hashPass HashPass.run
    rw [hbuckets, foldl_modify_buckets, List.dropWhile_map, List.map_map]
    rfl

end SymbolTable

/-! ## Inserting the symbols again -/

section Reinsert

variable {m : DeferredMap} {es : List (SymbolInTable × Pointer)}

theorem foldl_insertSorted (hm : m.Wf) (hes : es.Pairwise fun a b => rank a.1 ≠ rank b.1 ∧ a.2 ≠ b.2)
    (hnew : ∀ e ∈ es, (∀ o ∈ m.valueMap, rank o.1 ≠ rank e.1) ∧ e.2 ∉ m.valueList) :
    (es.foldl (fun m e => m.insertSorted e.1 e.2) m).Wf ∧
      (es.foldl (fun m e => m.insertSorted e.1 e.2) m).valueMap.Perm (m.valueMap ++ es) := by
  induction es generalizing m with
  | nil => simpa using hm
  | cons e es ih =>
    rw [List.pairwise_cons] at hes
    obtain ⟨hkeys, hvalue⟩ := hnew e List.mem_cons_self
    have hperm := DeferredMap.insertSorted_valueMap (DeferredMap.contains_eq_false.2 hkeys) e.2
    have hm₁ := hm.insertSorted e.1 hvalue
    obtain ⟨hwf, hp⟩ := ih hm₁ hes.2 (by
      intro o ho
      obtain ⟨hkeys', hvalue'⟩ := hnew o (List.mem_cons_of_mem e ho)
      refine ⟨fun x hx => ?_, ?_⟩
      · rcases List.mem_cons.1 (hperm.mem_iff.1 hx) with rfl | hx
        · exact (hes.1 o ho).1
        · exact hkeys' x hx
      · rw [hm₁.vector, (hperm.map Prod.snd).mem_iff, List.map_cons, List.mem_cons, ← hm.vector, not_or]
        exact ⟨(hes.1 o ho).2.symm, hvalue'⟩)
    refine ⟨hwf, hp.trans ((hperm.append_right es).trans ?_)⟩
    exact List.perm_middle.symm

end Reinsert

theorem setTableIndex_zero {key : SymbolInTable} (h : key.tableIndex = 0) : { key with tableIndex := 0 } = key := by
  cases key
  cases h
  rfl

/-- No hashed name is the name of another symbol. -/
structure SymbolTable.Separate (t : SymbolTable) : Prop where
  hashed : (t.hashed.map t.nameOf).Nodup
  unhashed : ∀ v ∈ t.unhashed, (t.map.getKey v).getName ∉ t.hashed.map t.nameOf

theorem rank_lt_of_tableIndex {a b : SymbolInTable} (h : a.tableIndex < b.tableIndex) : rank a < rank b := by
  unfold rank
  rw [Prod.Lex.toLex_lt_toLex]
  exact .inl h

namespace SymbolTable

variable {t : SymbolTable}

theorem unhashed_append_hashed (t : SymbolTable) : t.unhashed ++ t.hashed = t.map.valueList :=
  List.takeWhile_append_dropWhile

theorem Wf.valueMap_eq (ht : t.Wf) : t.map.valueMap = t.map.valueList.map fun v => (t.map.getKey v, v) := by
  rw [ht.map.vector, List.map_map]
  conv_lhs => rw [← List.map_id t.map.valueMap]
  refine List.map_congr_left fun e he => ?_
  simp only [Function.comp_apply, DeferredMap.getKey, ht.map.reverse e he]
  rfl

theorem Wf.ordered (ht : t.Wf) :
    t.map.valueList.Pairwise fun a b => rank (t.map.getKey a) < rank (t.map.getKey b) := by
  have := ht.map.ordered
  rw [ht.valueMap_eq, List.pairwise_map] at this
  exact this

theorem Wf.mem_valueMap (ht : t.Wf) {v : Pointer} (hv : v ∈ t.map.valueList) : (t.map.getKey v, v) ∈ t.map.valueMap := by
  rw [ht.valueMap_eq]
  exact List.mem_map_of_mem hv

theorem mem_of_hashed {v : Pointer} (hv : v ∈ t.hashed) : v ∈ t.map.valueList :=
  (List.dropWhile_sublist _).subset hv

/-- A hashed symbol is behind one with an address, so it is neither a null nor a section symbol. -/
theorem hashed_type (ht : t.Wf) (hn : t.Named) {v : Pointer} (hv : v ∈ t.hashed) :
    (t.map.getKey v).type ≠ .null ∧ (t.map.getKey v).type ≠ .section := by
  have hzero : ∀ v ∈ t.map.valueList, (t.map.getKey v).tableIndex = 0 := fun v hv =>
    ht.tableIndex _ (ht.mem_valueMap hv)
  suffices 2 ≤ (t.map.getKey v).type.toNat by
    constructor <;> intro h <;> rw [h] at this <;> simp [EntryType.toNat] at this
  cases hh : t.hashed with
  | nil => simp [hh] at hv
  | cons first rest =>
    have hfirst : (t.elfSym first).stValue ≠ 0 := by
      have := List.head?_dropWhile_not (fun v => decide ((t.elfSym v).stValue = 0)) t.map.valueList
      rw [show t.map.valueList.dropWhile (fun v => decide ((t.elfSym v).stValue = 0)) = first :: rest from hh] at this
      simpa using this
    have hmem : first ∈ t.map.valueList := mem_of_hashed (by simp [hh])
    have htype : 2 ≤ (t.map.getKey first).type.toNat := by
      by_contra hlt
      refine hfirst (hn.value _ (ht.mem_valueMap hmem) ?_)
      revert hlt
      cases (t.map.getKey first).type <;> simp [EntryType.toNat]
    have hord := ht.ordered.sublist (List.dropWhile_sublist fun v => decide ((t.elfSym v).stValue = 0))
    change t.hashed.Pairwise _ at hord
    rw [hh, List.pairwise_cons] at hord
    rw [hh] at hv
    rcases List.mem_cons.1 hv with rfl | hv
    · exact htype
    · have hlt := hord.1 v hv
      unfold rank at hlt
      rw [Prod.Lex.toLex_lt_toLex, Prod.Lex.toLex_lt_toLex, hzero first hmem,
        hzero v (mem_of_hashed (by simp [hh, hv]))] at hlt
      dsimp only at hlt
      omega

theorem nameOf_hashed (ht : t.Wf) (hn : t.Named) (hsize : t.strtab.length < 2 ^ 32) {v : Pointer} (hv : v ∈ t.hashed) :
    (t.map.getKey v).getName = t.nameOf v := by
  obtain ⟨hnull, hsection⟩ := hashed_type ht hn hv
  have hmem := ht.mem_valueMap (mem_of_hashed hv)
  obtain ⟨sym, hsym⟩ : ∃ sym, (t.map.getKey v).sym = some sym := by
    rw [← Option.isSome_iff_exists, Option.isSome_iff_ne_none]
    exact fun h => hnull ((hn.null _ hmem).1 h)
  unfold getName nameOf
  rw [hsym, (hn.name hsize _ hmem hsection sym hsym).cString]

/-- The emitted order: the symbols in front, then the buckets. -/
theorem emitted_valueList (ht : t.Wf) (hn : t.Named) (hsize : t.strtab.length < 2 ^ 32) (hs : t.Separate) :
    t.makeDynsymHash.2.map.valueList = t.unhashed ++ (buckets 1011 (bucketHash ∘ t.nameOf) t.hashed).flatten := by
  generalize hB : (buckets 1011 (bucketHash ∘ t.nameOf) t.hashed).flatten = B
  generalize hidx : makeIndexMap t.hashPass.bucketList = idx
  have hBperm : B.Perm t.hashed := hB ▸ flatten_buckets_perm (by decide) _
  have hnames : idx = numbered (B.map t.nameOf) := by
    rw [← hidx, (hashPass_spec t).2, makeIndexMap, buckets_map, ← List.map_flatten, hB]
  have hnodup : (B.map t.nameOf).Nodup := ((hBperm.map _).nodup_iff).2 hs.hashed
  have hperm : (t.unhashed ++ B).Perm t.map.valueList := by
    rw [← t.unhashed_append_hashed]
    exact hBperm.append_left _
  -- the keys under which the values are inserted again
  have hfront : ∀ v ∈ t.unhashed, newKey idx (t.map.getKey v) = t.map.getKey v := by
    intro v hv
    have hnone : idx (t.map.getKey v).getName = none := by
      rw [hnames, numbered_eq_none, (hBperm.map t.nameOf).mem_iff]
      exact hs.unhashed v hv
    unfold newKey
    rw [hnone]
  have hback : ∀ i (hi : i < B.length), (newKey idx (t.map.getKey B[i])) = { t.map.getKey B[i] with tableIndex := i } := by
    intro i hi
    have hsome : idx (t.map.getKey B[i]).getName = some i := by
      rw [nameOf_hashed ht hn hsize (hBperm.mem_iff.1 (List.getElem_mem hi)), hnames]
      have := numbered_getElem hnodup (i := i) (by simpa using hi)
      rwa [List.getElem_map] at this
    unfold newKey
    rw [hsome]
  have hord : (t.unhashed ++ B).Pairwise fun a b =>
      rank (newKey idx (t.map.getKey a)) < rank (newKey idx (t.map.getKey b)) := by
    have hsplit := ht.ordered
    rw [← t.unhashed_append_hashed, List.pairwise_append] at hsplit
    refine List.pairwise_append.2 ⟨?_, ?_, ?_⟩
    · refine hsplit.1.imp_of_mem fun {a b} ha hb h => ?_
      rwa [hfront a ha, hfront b hb]
    · rw [List.pairwise_iff_getElem]
      intro i j hi hj hij
      rw [hback i hi, hback j hj]
      exact rank_lt_of_tableIndex hij
    · intro a ha b hb
      have hzero : ∀ v ∈ t.map.valueList, (t.map.getKey v).tableIndex = 0 := fun v hv =>
        ht.tableIndex _ (ht.mem_valueMap hv)
      have hlt := hsplit.2.2 a ha b (hBperm.mem_iff.1 hb)
      obtain ⟨i, hi, rfl⟩ := List.mem_iff_getElem.1 hb
      rw [hfront a ha, hback i hi]
      cases i with
      | zero =>
        rwa [setTableIndex_zero (hzero B[0] (mem_of_hashed (hBperm.mem_iff.1 hb)))]
      | succ i =>
        refine rank_lt_of_tableIndex ?_
        rw [hzero a ((List.takeWhile_sublist _).subset ha)]
        exact Nat.succ_pos i
  have hes : (t.map.valueList.map fun v => (newKey idx (t.map.getKey v), v)).Pairwise fun a b =>
      rank a.1 ≠ rank b.1 ∧ a.2 ≠ b.2 := by
    rw [List.pairwise_map]
    refine (hperm.pairwise_iff fun {a b} h => ⟨h.1.symm, h.2.symm⟩).1 (List.Pairwise.and ?_ ?_)
    · exact hord.imp fun h => h.ne
    · exact hperm.nodup_iff.2 ht.map.nodup
  obtain ⟨hwf, hp⟩ := foldl_insertSorted DeferredMap.wf_empty hes (by simp [DeferredMap.empty])
  have hre : t.makeDynsymHash.2.map = (t.map.valueList.map fun v => (newKey idx (t.map.getKey v), v)).foldl
      (fun m e => m.insertSorted e.1 e.2) DeferredMap.empty := by
    change reinsert (makeIndexMap t.hashPass.bucketList) t.map.valueMap = _
    rw [hidx, reinsert, ht.valueMap_eq, List.foldl_map, List.foldl_map]
  rw [← hre] at hwf hp
  have hmap : t.makeDynsymHash.2.map.valueMap = (t.unhashed ++ B).map fun v => (newKey idx (t.map.getKey v), v) := by
    refine eq_of_perm_of_ordered (fun e : SymbolInTable × Pointer => rank e.1) ?_ hwf.ordered
      (List.pairwise_map.2 hord)
    exact hp.trans (hperm.map _).symm
  rw [hwf.vector, hmap, List.map_map]
  exact List.map_id _

end SymbolTable

end Egalito.GnuHash
