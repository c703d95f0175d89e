import Egalito.GnuHash.Emitted
/-!
# Lookups in `.gnu.hash`

The words of the section are read back: the filter passes every name, a bucket
word leads to the first symbol of its bucket, and the chain ends with the last
one. Where the emitted table follows the buckets, a lookup therefore finds the
hashed names and no others.
-/

open Egalito.Lib

namespace Egalito.GnuHash

/-! ## The two hash functions -/

theorem foldl_hash (name : Name) (h : BitVec 64) :
    (name.foldl (fun (h : BitVec 64) ch => (h <<< 5) + h + BitVec.ofNat 64 ch.toNat) h).setWidth 32 =
      name.foldl (fun (h : Word) c => h * 33 + BitVec.ofNat 32 c.toNat) (h.setWidth 32) := by
  induction name generalizing h with
  | nil => rfl
  | cons c name ih =>
    rw [List.foldl_cons, List.foldl_cons, ih]
    congr 1
    apply BitVec.eq_of_toNat_eq
    have h33 : (33 : Word).toNat = 33 := rfl
    simp only [h33, BitVec.toNat_setWidth, BitVec.toNat_add, BitVec.toNat_mul, BitVec.toNat_shiftLeft, BitVec.toNat_ofNat,
      Nat.shiftLeft_eq]
    omega

theorem setWidth_bfdElfGnuHash (name : Name) : (bfdElfGnuHash name).setWidth 32 = gnuHash name := by
  unfold bfdElfGnuHash gnuHash
  rw [BitVec.setWidth_and, foldl_hash]
  have hmask : (0xffffffff : BitVec 64).setWidth 32 = BitVec.allOnes 32 := by decide
  rw [hmask, BitVec.and_allOnes]
  rfl

theorem bucketHash_eq (name : Name) : bucketHash name = (gnuHash name).toNat := by
  unfold bucketHash
  rw [← setWidth_bfdElfGnuHash, BitVec.toNat_setWidth, Nat.mod_eq_of_lt]
  unfold bfdElfGnuHash
  rw [BitVec.toNat_and]
  exact lt_of_le_of_lt Nat.and_le_right (by decide)

/-! ## Chains -/

/-- The word of a name, before the end of a chain is marked. -/
theorem chainValue_eq (name : Name) :
    ((bfdElfGnuHash name &&& ~~~1).truncate 32 : Word) = gnuHash name &&& ~~~1 := by
  have hmask : ((~~~1 : BitVec 64).setWidth 32) = ~~~(1 : Word) := by decide
  rw [BitVec.truncate_eq_setWidth, BitVec.setWidth_and, setWidth_bfdElfGnuHash, hmask]

section Marks

variable (h : Word)

theorem even_or_one : (h &&& ~~~1) ||| 1 = h ||| 1 := by
  ext i hi
  rw [BitVec.getElem_or, BitVec.getElem_and, BitVec.getElem_not, BitVec.getElem_or]
  cases h[i] <;> cases (1 : Word)[i] <;> rfl

theorem even_and_one : (h &&& ~~~1) &&& 1 = 0 := by
  ext i hi
  cases i <;> simp

theorem even_add_one : (h &&& ~~~1) + 1 = h ||| 1 := by
  rw [BitVec.add_eq_or_of_and_eq_zero _ _ (even_and_one h), even_or_one]

theorem odd_and_one : (h ||| 1) &&& 1 = 1 := by
  ext i hi
  cases i <;> simp

end Marks

theorem chainWord_or (bucket : List Name) (name : Name) : chainWord bucket name ||| 1 = gnuHash name ||| 1 := by
  unfold chainWord
  simp only [chainValue_eq]
  split_ifs
  · rw [even_add_one, BitVec.or_assoc, BitVec.or_self]
  · exact even_or_one _

theorem chainWord_and {bucket : List Name} {name : Name} :
    chainWord bucket name &&& 1 ≠ 0 ↔ bucket.getLast? = some name := by
  unfold chainWord
  simp only [chainValue_eq]
  split_ifs with h
  · rw [even_add_one, odd_and_one]
    exact iff_of_true (by decide) h
  · rw [even_and_one]
    exact iff_of_false (by simp) h

theorem lookupChain_cons {names chain symix} {m : Name} (name : Name) {hash : Word} (hm : names[symix]? = some m)
    (hhash : hash ||| 1 = gnuHash m ||| 1) : lookupChain names name (hash :: chain) symix =
      if m = name then some (some symix) else if hash &&& 1 ≠ 0 then some none
      else lookupChain names name chain (symix + 1) := by
  rw [lookupChain, hm, hhash]
  by_cases hmn : m = name
  · simp [hmn]
  · simp only [hmn, and_false, if_false, Option.bind_eq_bind, Option.bind_some]
    rfl

/-- The walk through a bucket with different names, from one of its names on. -/
theorem lookupChain_bucket {bucket : List Name} (hnodup : bucket.Nodup) (names : List Name) (name : Name)
    (rest : List Word) {pre suf : List Name} (hsplit : bucket = pre ++ suf) (hsuf : suf ≠ []) {symix : Nat}
    (hnames : ∀ i < suf.length, names[symix + i]? = suf[i]?) :
    lookupChain names name (suf.map (chainWord bucket) ++ rest) symix = some ((suf.idxOf? name).map (symix + ·)) := by
  induction suf generalizing pre symix with
  | nil => exact absurd rfl hsuf
  | cons m suf ih =>
    have hm : names[symix]? = some m := by simpa using hnames 0 (by simp)
    rw [List.map_cons, List.cons_append, lookupChain_cons name hm (chainWord_or bucket m), List.idxOf?_cons]
    by_cases hmn : m = name
    · simp [hmn]
    simp only [beq_iff_eq, hmn, if_false, chainWord_and]
    cases suf with
    | nil =>
      rw [if_pos (by rw [hsplit, List.getLast?_concat])]
      rfl
    | cons m' suf =>
      have hlast : bucket.getLast? ≠ some m := by
        rw [hsplit, List.getLast?_append_cons, List.getLast?_cons_cons]
        intro h
        rw [hsplit] at hnodup
        exact (List.nodup_cons.1 (List.nodup_append.1 hnodup).2.1).1 (List.mem_of_mem_getLast? h)
      have hbehind : ∀ i < (m' :: suf).length, names[symix + 1 + i]? = (m' :: suf)[i]? := by
        intro i hi
        have := hnames (i + 1) (by simpa using hi)
        rwa [List.getElem?_cons_succ, Nat.add_comm i 1, ← Nat.add_assoc] at this
      rw [if_neg hlast, ih (by rw [hsplit, List.append_assoc]; rfl : bucket = (pre ++ [m]) ++ m' :: suf) (by simp) hbehind,
        Option.map_map]
      congr 2
      funext i
      simp only [Function.comp_apply]
      omega

/-! ## The words of the section -/

theorem bloomWords_eq : bloomList.flatMap addWord64 = List.replicate 512 (BitVec.allOnes 32) := by
  decide +kernel

theorem length_bucketWords (bs : BucketList) (n : Nat) : (bucketWords bs n).length = bs.length := by
  induction bs generalizing n with
  | nil => rfl
  | cons bucket bs ih =>
    unfold bucketWords
    split_ifs <;> rw [List.length_cons, List.length_cons, ih]

/-- A bucket word is the index of the first symbol in the bucket. -/
theorem getElem?_bucketWords {bs : BucketList} {n b : Nat} {bucket : List Name} (hb : bs[b]? = some bucket) :
    (bucketWords bs n)[b]? =
      some (if bucket = [] then 0 else BitVec.ofNat 32 (n + (bs.take b).flatten.length)) := by
  induction bs generalizing n b with
  | nil => simp at hb
  | cons first bs ih =>
    unfold bucketWords
    cases b with
    | zero =>
      obtain rfl : first = bucket := by simpa using hb
      by_cases hempty : first = []
      · simp [hempty]
      · rw [if_pos (by simpa using hempty), if_neg hempty]
        simp
    | succ b =>
      rw [List.getElem?_cons_succ] at hb
      by_cases hempty : first = []
      · simp only [hempty, List.length_nil, ne_eq, not_true_eq_false, if_false, List.getElem?_cons_succ, ih hb,
          List.take_succ_cons, List.flatten_cons, List.nil_append]
      · rw [if_pos (by simpa using hempty), List.getElem?_cons_succ, ih hb, List.take_succ_cons, List.flatten_cons,
          List.length_append, Nat.add_assoc]

/-- The chain of a bucket is behind those of the buckets before it. -/
theorem drop_chainWords {bs : BucketList} {b : Nat} {bucket : List Name} (hb : bs[b]? = some bucket) :
    ∃ rest, (bs.flatMap chainWords).drop (bs.take b).flatten.length = chainWords bucket ++ rest := by
  have hsplit : bs = bs.take b ++ bucket :: bs.drop (b + 1) := by
    obtain ⟨hlt, rfl⟩ := List.getElem?_eq_some_iff.1 hb
    rw [← List.drop_eq_getElem_cons hlt, List.take_append_drop]
  have hlen : ((bs.take b).flatMap chainWords).length = (bs.take b).flatten.length := by
    rw [List.length_flatMap, List.length_flatten]
    simp [chainWords]
  refine ⟨(bs.drop (b + 1)).flatMap chainWords, ?_⟩
  conv_lhs => rw [hsplit]
  rw [List.flatMap_append, List.flatMap_cons, List.take_left' (by
    obtain ⟨hlt, -⟩ := List.getElem?_eq_some_iff.1 hb
    exact List.length_take_of_le hlt.le), ← hlen, List.drop_left]

/-- The section as its four parts. -/
theorem content_parts {p : HashPass} (hlen : p.bucketList.length = 1011) : ∃ bloom : List Word,
    p.content = [1011#32, BitVec.ofNat 32 p.firstHashedSymbol, 256#32, 5#32] ++ (bloom ++
      (bucketWords p.bucketList p.firstHashedSymbol ++ p.bucketList.flatMap chainWords)) ∧
    bloom.length = 512 ∧ ∀ i < 512, bloom[i]? = some (BitVec.allOnes 32) := by
  refine ⟨bloomList.flatMap addWord64, ?_, ?_, fun i hi => ?_⟩
  · unfold HashPass.content
    rw [hlen, List.append_assoc, List.append_assoc]
    have hbloom : bloomList.length = 256 := by unfold bloomList; exact List.length_replicate
    rw [hbloom]
    rfl
  · rw [bloomWords_eq]
    exact List.length_replicate
  · rw [bloomWords_eq]
    exact List.getElem?_replicate_of_lt hi

section Content

variable {p : HashPass} (hlen : p.bucketList.length = 1011)
include hlen

theorem content_header : p.content[0]? = some 1011#32 ∧ p.content[1]? = some (BitVec.ofNat 32 p.firstHashedSymbol) ∧
    p.content[2]? = some 256#32 ∧ p.content[3]? = some 5#32 := by
  obtain ⟨bloom, hcontent, -⟩ := content_parts hlen
  rw [hcontent]
  exact ⟨rfl, rfl, rfl, rfl⟩

theorem content_bloom {i : Nat} (hi : i < 512) : p.content[4 + i]? = some (BitVec.allOnes 32) := by
  obtain ⟨bloom, hcontent, hbloom, hones⟩ := content_parts hlen
  rw [hcontent, List.getElem?_append_right (Nat.le_add_right 4 i)]
  have : 4 + i - [1011#32, BitVec.ofNat 32 p.firstHashedSymbol, 256#32, 5#32].length = i := Nat.add_sub_cancel_left ..
  rw [this, List.getElem?_append_left (by omega), hones i hi]

theorem content_bucket {b : Nat} (hb : b < 1011) :
    p.content[516 + b]? = (bucketWords p.bucketList p.firstHashedSymbol)[b]? := by
  obtain ⟨bloom, hcontent, hbloom, -⟩ := content_parts hlen
  have hwords := length_bucketWords p.bucketList p.firstHashedSymbol
  rw [hcontent, ← List.append_assoc, List.getElem?_append_right (by rw [List.length_append, hbloom]; simp)]
  have : 516 + b - ([1011#32, BitVec.ofNat 32 p.firstHashedSymbol, 256#32, 5#32] ++ bloom).length = b := by
    rw [List.length_append, hbloom]
    exact Nat.add_sub_cancel_left ..
  rw [this, List.getElem?_append_left (by omega)]

theorem content_chain (i : Nat) : p.content.drop (516 + 1011 + i) = (p.bucketList.flatMap chainWords).drop i := by
  obtain ⟨bloom, hcontent, hbloom, -⟩ := content_parts hlen
  have hfront : ([1011#32, BitVec.ofNat 32 p.firstHashedSymbol, 256#32, 5#32] ++ bloom ++
      bucketWords p.bucketList p.firstHashedSymbol).length = 516 + 1011 := by
    rw [List.length_append, List.length_append, hbloom, length_bucketWords, hlen]
    rfl
  rw [hcontent, ← List.append_assoc, ← List.append_assoc, ← hfront, List.drop_length_add_append]

end Content

/-- What is left of a lookup in the content, once the header and the filter are read. -/
theorem gnuLookup_eq {p : HashPass} (hlen : p.bucketList.length = 1011) (names : List Name) (name : Name) {symix : Word}
    (hsymix : (bucketWords p.bucketList p.firstHashedSymbol)[(gnuHash name).toNat % 1011]? = some symix) :
    gnuLookup p.content names name = if symix < BitVec.ofNat 32 p.firstHashedSymbol then some none else
      lookupChain names name ((p.bucketList.flatMap chainWords).drop
        (symix.toNat - (BitVec.ofNat 32 p.firstHashedSymbol).toNat)) symix.toNat := by
  obtain ⟨h0, h1, h2, h3⟩ := content_header hlen
  have hbloom : (gnuHash name).toNat / 64 % 256 < 256 := Nat.mod_lt _ (by decide)
  have hlow : p.content[4 + 2 * ((gnuHash name).toNat / 64 % 256)]? = some (BitVec.allOnes 32) :=
    content_bloom hlen (by omega)
  have hhigh : p.content[4 + 2 * ((gnuHash name).toNat / 64 % 256) + 1]? = some (BitVec.allOnes 32) := by
    rw [Nat.add_assoc]
    exact content_bloom hlen (by omega)
  have hones : (BitVec.allOnes 32 ++ BitVec.allOnes 32 : BitVec 64) = BitVec.allOnes 64 := by decide
  have hbucket := (content_bucket hlen (Nat.mod_lt (gnuHash name).toNat (by decide))).trans hsymix
  unfold gnuLookup
  simp only [h0, h1, h2, h3, Option.bind_eq_bind, Option.bind_some, BitVec.toNat_ofNat, Nat.reducePow, Nat.reduceMod,
    hlow, hhigh, hones, BitVec.allOnes_and, ne_eq, not_true_eq_false, if_false, hbucket, Nat.reduceMul, Nat.reduceAdd]
  rw [show 1527 = 516 + 1011 from rfl, content_chain hlen]
  rfl

/-- Where the symbols behind the first hashed one are those of the buckets, a lookup finds the
position of a name in the buckets. -/
theorem gnuLookup_content {p : HashPass} {names hashedNames : List Name}
    (hbs : p.bucketList = buckets 1011 bucketHash hashedNames) (hfirst : 0 < p.firstHashedSymbol) (hsize : p.firstHashedSymbol + p.bucketList.flatten.length < 2 ^ 32)
    (hnodup : p.bucketList.flatten.Nodup)
    (hnames : ∀ i < p.bucketList.flatten.length, names[p.firstHashedSymbol + i]? = p.bucketList.flatten[i]?)
    (name : Name) : gnuLookup p.content names name =
      some ((p.bucketList.flatten.idxOf? name).map (p.firstHashedSymbol + ·)) := by
  have hlen : p.bucketList.length = 1011 := by rw [hbs, length_buckets]
  generalize hb : (gnuHash name).toNat % 1011 = b
  have hlt : b < 1011 := hb ▸ Nat.mod_lt _ (by decide)
  obtain ⟨bucket, hbucket⟩ : ∃ bucket, p.bucketList[b]? = some bucket :=
    ⟨_, List.getElem?_eq_getElem (by rw [hlen]; exact hlt)⟩
  -- the names in front of the bucket, in it and behind it
  have hflat : p.bucketList.flatten =
      (p.bucketList.take b).flatten ++ (bucket ++ (p.bucketList.drop (b + 1)).flatten) := by
    obtain ⟨hi, rfl⟩ := List.getElem?_eq_some_iff.1 hbucket
    rw [← List.flatten_cons, ← List.flatten_append, ← List.drop_eq_getElem_cons hi, List.take_append_drop]
  have hown : ∀ j bucket', p.bucketList[j]? = some bucket' → name ∈ bucket' → j = b := by
    intro j bucket' hj hmem
    have hlt : j < 1011 := by
      rw [← hlen]
      exact (List.getElem?_eq_some_iff.1 hj).1
    rw [hbs, getElem?_buckets hlt, Option.some.injEq] at hj
    rw [← hj, List.mem_filter, bucketHash_eq, hb] at hmem
    have := hmem.2
    simp only [decide_eq_true_eq] at this
    exact this.symm
  have hfront : name ∉ (p.bucketList.take b).flatten := by
    intro h
    obtain ⟨bucket', hmem, h⟩ := List.mem_flatten.1 h
    obtain ⟨j, hj⟩ := List.getElem?_of_mem hmem
    have hjb : j < b := by
      by_contra hge
      rw [List.getElem?_take, if_neg hge] at hj
      cases hj
    rw [List.getElem?_take_of_lt hjb] at hj
    exact absurd (hown j bucket' hj h) hjb.ne
  have hbehind : name ∉ (p.bucketList.drop (b + 1)).flatten := by
    intro h
    obtain ⟨bucket', hmem, h⟩ := List.mem_flatten.1 h
    obtain ⟨j, hj⟩ := List.getElem?_of_mem hmem
    rw [List.getElem?_drop] at hj
    have := hown _ bucket' hj h
    omega
  have hidx : p.bucketList.flatten.idxOf? name =
      (bucket.idxOf? name).map ((p.bucketList.take b).flatten.length + ·) := by
    rw [hflat, idxOf?_append_right hfront, idxOf?_append_left hbehind]
  have hwords := getElem?_bucketWords (n := p.firstHashedSymbol) hbucket
  rw [← hb] at hwords
  rw [gnuLookup_eq hlen names name hwords, hidx]
  have hfirst32 : (BitVec.ofNat 32 p.firstHashedSymbol).toNat = p.firstHashedSymbol := by
    rw [BitVec.toNat_ofNat, Nat.mod_eq_of_lt (by omega)]
  by_cases hempty : bucket = []
  · rw [if_pos hempty, if_pos, hempty]
    · rfl
    · rw [BitVec.lt_def, hfirst32]
      exact hfirst
  · have hroom : (p.bucketList.take b).flatten.length + bucket.length ≤ p.bucketList.flatten.length := by
      rw [hflat, List.length_append, List.length_append]
      omega
    have hsymix : (BitVec.ofNat 32 (p.firstHashedSymbol + (p.bucketList.take b).flatten.length)).toNat =
        p.firstHashedSymbol + (p.bucketList.take b).flatten.length := by
      rw [BitVec.toNat_ofNat, Nat.mod_eq_of_lt (by omega)]
    have hge : ¬ BitVec.ofNat 32 (p.firstHashedSymbol + (p.bucketList.take b).flatten.length) <
        BitVec.ofNat 32 p.firstHashedSymbol := by
      rw [BitVec.lt_def, hsymix, hfirst32]
      omega
    obtain ⟨rest, hrest⟩ := drop_chainWords hbucket
    rw [if_neg hempty, hb, if_neg hge, hsymix, hfirst32, Nat.add_sub_cancel_left, hrest]
    have hbnodup : bucket.Nodup := by
      rw [hflat] at hnodup
      exact (List.nodup_append.1 (List.nodup_append.1 hnodup).2.1).1
    rw [chainWords, lookupChain_bucket hbnodup names name rest (List.nil_append bucket).symm hempty ?_, Option.map_map]
    · congr 2
      funext i
      simp only [Function.comp_apply]
      omega
    · intro i hi
      rw [Nat.add_assoc, hnames _ (by omega), hflat, List.getElem?_append_right (Nat.le_add_right ..),
        Nat.add_sub_cancel_left, List.getElem?_append_left hi]

/-! ## Lookups in a table -/

namespace SymbolTable

/-- The hashed symbols in the order of their buckets. -/
def bucketed (t : SymbolTable) : List Pointer := (buckets 1011 (bucketHash ∘ t.nameOf) t.hashed).flatten

/-- A local or a global symbol. -/
def isDefined (t : SymbolTable) (v : Pointer) : Bool :=
  (t.map.getKey v).type = .local || (t.map.getKey v).type = .global

/-- A lookup finds a defined symbol at its index, and no other name. -/
structure LookupCorrect (t : SymbolTable) : Prop where
  found : ∀ v ∈ t.map.valueList, t.isDefined v = true →
    ∃ i, t.makeDynsymHash.2.map.indexOf v = some i ∧ t.lookup (t.nameOf v) = some (some i)
  missing : ∀ name, (∀ v ∈ t.map.valueList, t.isDefined v = true → t.nameOf v ≠ name) → t.lookup name = some none

section Tables

variable {t : SymbolTable} (ht : t.Wf) (hn : t.Named) (hstr : t.strtab.length < 2 ^ 32)
  (hcount : t.map.valueList.length < 2 ^ 32) (hs : t.Separate) (hnull : t.unhashed ≠ [])

theorem bucketed_perm : t.bucketed.Perm t.hashed := flatten_buckets_perm (by decide) _

include hs in
theorem bucketed_nodup : (t.bucketed.map t.nameOf).Nodup := ((bucketed_perm.map _).nodup_iff).2 hs.hashed

include ht hn hstr hcount hs hnull in
theorem lookup_spec (name : Name) :
    t.lookup name = some (((t.bucketed.map t.nameOf).idxOf? name).map (t.unhashed.length + ·)) := by
  obtain ⟨hfirst, hbs⟩ := hashPass_spec t
  have hflat : t.hashPass.bucketList.flatten = t.bucketed.map t.nameOf := by
    rw [hbs, buckets_map, ← List.map_flatten]
    rfl
  have hnames : t.makeDynsymHash.2.map.valueList.map t.makeDynsymHash.2.nameOf =
      t.unhashed.map t.nameOf ++ t.bucketed.map t.nameOf := by
    rw [emitted_valueList ht hn hstr hs, List.map_append]
    rfl
  have hsize : t.unhashed.length + t.bucketed.length < 2 ^ 32 := by
    rw [bucketed_perm.length_eq, ← List.length_append, t.unhashed_append_hashed]
    exact hcount
  unfold lookup
  rw [hnames, ← hflat, ← hfirst]
  refine gnuLookup_content hbs ?_ ?_ ?_ ?_ name
  · rw [hfirst]
    exact List.length_pos_iff.2 hnull
  · rw [hfirst, hflat, List.length_map]
    exact hsize
  · rw [hflat]
    exact bucketed_nodup hs
  · intro i _
    rw [hfirst, List.getElem?_append_right (by simp), List.length_map, Nat.add_sub_cancel_left]

include ht hn hstr hs in
theorem indexOf_bucketed {i : Nat} (hi : i < t.bucketed.length) :
    t.makeDynsymHash.2.map.indexOf t.bucketed[i] = some (t.unhashed.length + i) := by
  have hperm : (t.unhashed ++ t.bucketed).Perm t.map.valueList := by
    rw [← t.unhashed_append_hashed]
    exact bucketed_perm.append_left _
  have := numbered_getElem (hperm.nodup_iff.2 ht.map.nodup) (i := t.unhashed.length + i) (by simpa using hi)
  rw [List.getElem_append_right (Nat.le_add_right ..)] at this
  simp only [Nat.add_sub_cancel_left] at this
  unfold DeferredMap.indexOf
  rw [emitted_valueList ht hn hstr hs]
  exact this

include ht hn hstr hcount hs hnull in
theorem lookupCorrect_iff : t.LookupCorrect ↔ ∀ v ∈ t.map.valueList, t.isDefined v = true ↔ v ∈ t.hashed := by
  have hlookup := lookup_spec ht hn hstr hcount hs hnull
  have hnodup := bucketed_nodup hs
  -- a hashed symbol is found at its index
  have hhashed : ∀ v ∈ t.hashed, ∃ i, t.makeDynsymHash.2.map.indexOf v = some i ∧
      t.lookup (t.nameOf v) = some (some i) := by
    intro v hv
    obtain ⟨i, hi, rfl⟩ := List.mem_iff_getElem.1 (bucketed_perm.mem_iff.2 hv)
    refine ⟨_, indexOf_bucketed ht hn hstr hs hi, ?_⟩
    have := idxOf?_getElem hnodup (i := i) (by simpa using hi)
    rw [List.getElem_map] at this
    rw [hlookup, this]
    rfl
  constructor
  · intro hc
    have hdefined : ∀ v ∈ t.map.valueList, t.isDefined v = true → v ∈ t.hashed := by
      intro v hv hdef
      obtain ⟨i, hi, hfound⟩ := hc.found v hv hdef
      rw [hlookup, Option.some.injEq, Option.map_eq_some_iff] at hfound
      obtain ⟨j, hj, rfl⟩ := hfound
      have hjlt := (List.idxOf?_eq_some_iff.1 hj).1
      rw [List.length_map] at hjlt
      have hindex := getElem?_of_numbered ((indexOf_bucketed ht hn hstr hs hjlt))
      rw [getElem?_of_numbered hi, Option.some.injEq] at hindex
      rw [hindex]
      exact bucketed_perm.mem_iff.1 (List.getElem_mem hjlt)
    refine fun v hv => ⟨hdefined v hv, fun hh => ?_⟩
    by_contra hundef
    obtain ⟨i, -, hfound⟩ := hhashed v hh
    rw [hc.missing (t.nameOf v)] at hfound
    · cases hfound
    · intro w hw hdef he
      -- a defined symbol of that name is hashed too, so it is this one
      have := List.inj_on_of_nodup_map hs.hashed (hdefined w hw hdef) hh he
      exact hundef (this ▸ hdef)
  · intro hiff
    refine ⟨fun v hv hdef => hhashed v ((hiff v hv).1 hdef), fun name hname => ?_⟩
    have hnone : (t.bucketed.map t.nameOf).idxOf? name = none := by
      rw [List.idxOf?_eq_none_iff]
      intro hmem
      obtain ⟨v, hv, rfl⟩ := List.mem_map.1 hmem
      have hh := bucketed_perm.mem_iff.1 hv
      exact hname v (mem_of_hashed hh) ((hiff v (mem_of_hashed hh)).2 hh) rfl
    rw [hlookup, hnone]
    rfl

end Tables

/-- Well formed, with names in the string list and a null symbol. -/
structure Ready (t : SymbolTable) : Prop where
  wf : t.Wf
  named : t.Named
  null : ∃ e ∈ t.map.valueMap, e.1.type = .null

theorem Ready.unhashed_ne_nil {t : SymbolTable} (hr : t.Ready) : t.unhashed ≠ [] := by
  obtain ⟨e, he, htype⟩ := hr.null
  have hmem : e.2 ∈ t.unhashed ++ t.hashed := by
    rw [t.unhashed_append_hashed, hr.wf.map.vector]
    exact List.mem_map_of_mem he
  rcases List.mem_append.1 hmem with h | h
  · exact List.ne_nil_of_mem h
  · refine absurd ?_ (hashed_type hr.wf hr.named h).1
    rw [DeferredMap.getKey, hr.wf.map.reverse e he, htype]

end SymbolTable

theorem Insertion.run_named {t t' : SymbolTable} {i : Insertion} (hn : t.Named) (ht : t.Wf) (h : i.run t = some t') :
    t'.Named := by
  rcases run_cases h with ⟨⟨s, rfl⟩, -⟩ | ⟨key, symbol, ha, -, -⟩
  · refine ⟨hn.null, hn.value, fun hsize e he htype sym hsym => ?_⟩
    refine (hn.name ?_ e he htype sym hsym).append s
    rw [List.length_append] at hsize
    omega
  · exact hn.adds ht ha

theorem Insertion.run_ready {t t' : SymbolTable} {i : Insertion} (hr : t.Ready) (h : i.run t = some t') : t'.Ready := by
  refine ⟨run_wf hr.wf h, run_named hr.named hr.wf h, ?_⟩
  obtain ⟨e, he, htype⟩ := hr.null
  refine ⟨e, ?_, htype⟩
  rcases run_cases h with ⟨⟨s, rfl⟩, -⟩ | ⟨key, symbol, ha, -, -⟩
  · exact he
  · rw [ha.map]
    cases hc : t.map.contains key with
    | true => rwa [DeferredMap.insertSorted_eq_self hc]
    | false => exact (DeferredMap.insertSorted_valueMap hc _).mem_iff.2 (List.mem_cons_of_mem _ he)

theorem dynsym_ready : SymbolTable.dynsym.Ready := by
  have hrun : Insertion.nullSymbol.run (SymbolTable.empty [49, 50, 51, 52, 53, 54, 0]) = some SymbolTable.dynsym := rfl
  have hwf := SymbolTable.wf_empty [49, 50, 51, 52, 53, 54, 0]
  have hnamed : (SymbolTable.empty [49, 50, 51, 52, 53, 54, 0]).Named := by
    refine ⟨?_, ?_, ?_⟩ <;> simp [SymbolTable.empty, DeferredMap.empty]
  refine ⟨Insertion.run_wf hwf hrun, Insertion.run_named hnamed hwf hrun, (⟨.null, none, 0⟩, 0), ?_, rfl⟩
  decide

theorem build_ready {is : List Insertion} {t t' : SymbolTable} (hr : t.Ready) (h : t.build is = some t') : t'.Ready := by
  induction is generalizing t with
  | nil =>
    cases h
    exact hr
  | cons i is ih =>
    unfold SymbolTable.build at h
    rw [List.foldlM_cons, Option.bind_eq_bind, Option.bind_eq_some_iff] at h
    obtain ⟨t₁, h₁, h⟩ := h
    exact ih (i.run_ready hr h₁) h

/-- In every table that the insertions make, where no hashed name is the name of another symbol,
lookups are correct exactly when the symbols from the first address on are the defined ones. -/
theorem gnu_lookup_exact {is : List Insertion} {t : SymbolTable} (h : SymbolTable.dynsym.build is = some t)
    (hstr : t.strtab.length < 2 ^ 32) (hcount : t.map.valueList.length < 2 ^ 32) (hs : t.Separate) :
    t.LookupCorrect ↔ ∀ v ∈ t.map.valueList, t.isDefined v = true ↔ v ∈ t.hashed := by
  have hr := build_ready dynsym_ready h
  exact SymbolTable.lookupCorrect_iff hr.wf hr.named hstr hcount hs hr.unhashed_ne_nil

/-- An undefined symbol and a global function. -/
def globalInsertions : List Insertion :=
  [.undefinedSymbol putsSymbol, .symbol (some ⟨localSymbol.name, 0x1000, 8⟩) none]

theorem gnu_lookup_exact_sample : ∃ t, SymbolTable.dynsym.build globalInsertions = some t ∧ t.LookupCorrect := by
  have hlists : (SymbolTable.dynsym.build globalInsertions).map (fun t => (t.strtab.length, t.map.valueList, t.hashed,
      t.unhashed, t.map.valueList.map t.isDefined)) = some (15, [0, 1, 2], [2], [0, 1], [false, false, true]) := by
    decide +kernel
  have hnames : (SymbolTable.dynsym.build globalInsertions).map (fun t => (t.hashed.map t.nameOf,
      t.unhashed.map fun v => (t.map.getKey v).getName)) =
      some ([[102]], [SymbolInTable.nullName, putsSymbol.name.bytes]) := by
    decide +kernel
  obtain ⟨t, ht, hlists⟩ := Option.map_eq_some_iff.1 hlists
  simp only [ht, Option.map_some, Option.some.injEq, Prod.mk.injEq] at hnames hlists
  obtain ⟨hstr, hvalues, hhashed, hunhashed, hdefined⟩ := hlists
  obtain ⟨hnames, hkeys⟩ := hnames
  refine ⟨t, ht, (gnu_lookup_exact ht (by omega) (by simp [hvalues]) ⟨by simp [hnames], ?_⟩).2 ?_⟩
  · intro v hv
    have : (t.map.getKey v).getName ∈ [SymbolInTable.nullName, putsSymbol.name.bytes] := by
      rw [← hkeys]
      exact List.mem_map_of_mem hv
    rw [hnames]
    simp only [List.mem_cons, List.not_mem_nil, or_false] at this ⊢
    rcases this with h | h <;> rw [h] <;> decide
  · rw [hvalues, hhashed]
    simp only [hvalues, List.map_cons, List.map_nil, List.cons.injEq, and_true] at hdefined
    obtain ⟨h0, h1, h2⟩ := hdefined
    simp [h0, h1, h2]

/-- An undefined symbol and a local function. -/
def localInsertions : List Insertion :=
  [.undefinedSymbol putsSymbol, .symbol (some ⟨localSymbol.name, 0x1000, 8⟩) (some localSymbol)]

/-- Behind a local symbol with an address, an undefined symbol is hashed and found. -/
theorem undefined_symbol_found : ∃ t, SymbolTable.dynsym.build localInsertions = some t ∧
    (∀ v ∈ t.map.valueList, t.isDefined v = true → t.nameOf v ≠ putsSymbol.name.bytes) ∧
    t.lookup putsSymbol.name.bytes = some (some 1) ∧ ¬ t.LookupCorrect := by
  have hfacts : (SymbolTable.dynsym.build localInsertions).map (fun t =>
      (t.map.valueList.all fun v => !t.isDefined v || t.nameOf v ≠ putsSymbol.name.bytes,
        t.lookup putsSymbol.name.bytes)) = some (true, some (some 1)) := by
    decide +kernel
  obtain ⟨t, ht, heq⟩ := Option.map_eq_some_iff.1 hfacts
  simp only [Prod.mk.injEq] at heq
  obtain ⟨hall, hlookup⟩ := heq
  have hundef : ∀ v ∈ t.map.valueList, t.isDefined v = true → t.nameOf v ≠ putsSymbol.name.bytes := by
    intro v hv hdef
    have := List.all_eq_true.1 hall v hv
    simpa [hdef] using this
  refine ⟨t, ht, hundef, hlookup, fun hc => ?_⟩
  have := hc.missing _ hundef
  rw [hlookup] at this
  cases this

end Egalito.GnuHash
