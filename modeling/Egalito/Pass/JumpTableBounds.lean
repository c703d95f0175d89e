import Egalito.Pass.JumpTablePass
/-!
# The bounds of jump tables from relocations

`pass/jumptablebounds.cpp`: one scan over the sorted relocations, which counts
for the table that starts at a relocation how many of them follow at its slots.
The descriptor is changed as soon as a table starts, and not changed back where
the run turns out to be too short.
-/

open Egalito.Pass.JumpTablePass

namespace Egalito.Pass.JumpTableBounds

variable {τ : Type} [DecidableEq τ]

/-- The tables of a module, with what the pass reads of their descriptors. No two start at one address. -/
structure JumpTableList (τ : Type) where
  tables : List τ
  address : τ → Nat
  scale : τ → Nat
  scale_pos : ∀ t, 0 < scale t
  distinct : ∀ t ∈ tables, ∀ u ∈ tables, address t = address u → t = u

structure Scan (τ : Type) where
  bound : τ → Int
  currentTable : Option τ
  count : Nat

variable (list : JumpTableList τ)

def getEntries (bound : τ → Int) (t : τ) : Int := if bound t = longMax then -1 else bound t + 1

/-- The hard-coded minimum. -/
def minimum : Nat := 5

def setEntries (bound : τ → Int) (t : τ) (count : Nat) : τ → Int :=
  if minimum ≤ count then Function.update bound t (count - 1) else bound

/-- A later table replaces an earlier one at its address. -/
def tableMap : Nat → Option τ :=
  list.tables.foldl (fun map t => Function.update map (list.address t) (some t)) fun _ => none

/-- Ends the list of relocations of the current table. -/
def Scan.finish (s : Scan τ) : Scan τ :=
  match s.currentTable with
  | some t => { s with bound := setEntries s.bound t s.count, currentTable := none }
  | none => s

/-- One relocation. -/
def visitReloc (s : Scan τ) (address : Nat) : Scan τ :=
  match tableMap list address with
  | some t =>
    let s := s.finish
    if getEntries s.bound t ≤ 0 then ⟨Function.update s.bound t 0, some t, 1⟩ else s
  | none =>
    match s.currentTable with
    | some t => if address = list.address t + s.count * list.scale t then { s with count := s.count + 1 } else s.finish
    | none => s

def visit (bound : τ → Int) (relocs : List Nat) : τ → Int :=
  (relocs.foldl (visitReloc list) ⟨bound, none, 0⟩).finish.bound

/-! ## What the bound should be -/

def slot (t : τ) (k : Nat) : Nat := list.address t + k * list.scale t

/-- Slot `k` holds a relocation; behind the first one no other table starts there. -/
def Holds (relocs : List Nat) (t : τ) (k : Nat) : Prop :=
  slot list t k ∈ relocs ∧ (k = 0 ∨ ∀ u ∈ list.tables, list.address u ≠ slot list t k)

/-- The maximal run of slots from the start of the table on. -/
def IsRun (relocs : List Nat) (t : τ) (n : Nat) : Prop :=
  (∀ k < n, Holds list relocs t k) ∧ ¬ Holds list relocs t n

/-- The number of entries is the length of the run where it is long enough, and not known otherwise. -/
def Bounded (bound : τ → Int) (t : τ) (n : Nat) : Prop :=
  if minimum ≤ n then getEntries bound t = n else getEntries bound t = -1

/-! ## The map -/

variable {list} {t u : τ} {a k n : Nat} {relocs l : List Nat} {s : Scan τ} {bound : τ → Int}

theorem foldl_update (tables : List τ) (address : τ → Nat) (a : Nat) :
    (∀ t, tables.foldl (fun map t => Function.update map (address t) (some t)) (fun _ => none) a = some t →
      t ∈ tables ∧ address t = a) ∧
    ((∃ t ∈ tables, address t = a) →
      ∃ t, tables.foldl (fun map t => Function.update map (address t) (some t)) (fun _ => none) a = some t) := by
  induction tables using List.reverseRecOn with
  | nil => exact ⟨fun t h => (nomatch h), fun ⟨t, ht, _⟩ => nomatch ht⟩
  | append_singleton tables u ih =>
    rw [List.foldl_append, List.foldl_cons, List.foldl_nil, Function.update_apply]
    split_ifs with ha
    · refine ⟨fun t ht => ?_, fun _ => ⟨u, rfl⟩⟩
      obtain rfl := Option.some.inj ht
      exact ⟨by simp, ha.symm⟩
    · refine ⟨fun t ht => ?_, ?_⟩
      · obtain ⟨hmem, haddress⟩ := ih.1 t ht
        exact ⟨List.mem_append_left _ hmem, haddress⟩
      · rintro ⟨t, ht, rfl⟩
        rcases List.mem_append.1 ht with ht | ht
        · exact ih.2 ⟨t, ht, rfl⟩
        · rw [List.mem_singleton.1 ht] at ha
          exact absurd rfl ha

theorem address_of_tableMap (h : tableMap list a = some t) : t ∈ list.tables ∧ list.address t = a :=
  (foldl_update list.tables list.address a).1 t h

theorem tableMap_address (ht : t ∈ list.tables) : tableMap list (list.address t) = some t := by
  obtain ⟨u, hu⟩ := (foldl_update list.tables list.address (list.address t)).2 ⟨t, ht, rfl⟩
  obtain ⟨humem, haddress⟩ := address_of_tableMap hu
  rw [← list.distinct u humem t ht haddress]
  exact haddress ▸ hu

theorem tableMap_eq_none : tableMap list a = none ↔ ∀ u ∈ list.tables, list.address u ≠ a := by
  constructor
  · rintro hnone u hu rfl
    rw [tableMap_address hu] at hnone
    cases hnone
  · intro hall
    by_contra hne
    obtain ⟨u, hu⟩ := Option.ne_none_iff_exists'.1 hne
    exact hall u (address_of_tableMap hu).1 (address_of_tableMap hu).2

/-! ## The scan of one table -/

/-- How far the relocations follow at the slots. -/
def follow (list : JumpTableList τ) (t : τ) : Nat → List Nat → Nat
  | count, a :: l => if tableMap list a = none ∧ a = slot list t count then follow list t (count + 1) l else count
  | count, [] => count

theorem finish_bound (s : Scan τ) (h : s.currentTable ≠ some t) : s.finish.bound t = s.bound t := by
  unfold Scan.finish
  cases hc : s.currentTable with
  | none => rfl
  | some u =>
    have hne : t ≠ u := fun heq => h (by rw [hc, heq])
    unfold setEntries
    split_ifs
    · exact Function.update_of_ne hne _ _
    · rfl

theorem finish_currentTable (s : Scan τ) : s.finish.currentTable = none := by
  unfold Scan.finish
  cases hc : s.currentTable with
  | none => exact hc
  | some u => rfl

/-- A table that is not the current one, and that does not start here or has entries, is left alone. -/
theorem visitReloc_other (h : s.currentTable ≠ some t) (ha : list.address t ≠ a ∨ 0 < getEntries s.bound t) :
    (visitReloc list s a).currentTable ≠ some t ∧ (visitReloc list s a).bound t = s.bound t := by
  have hnone : s.finish.currentTable ≠ some t := by
    rw [finish_currentTable]
    exact Option.some_ne_none t |>.symm
  have hbound := finish_bound s h
  unfold visitReloc
  cases hmap : tableMap list a with
  | none =>
    cases hc : s.currentTable with
    | none =>
      dsimp only
      exact ⟨h, rfl⟩
    | some u =>
      dsimp only
      split_ifs
      · exact ⟨fun heq => h (hc.trans heq), rfl⟩
      · exact ⟨hnone, hbound⟩
  | some u =>
    dsimp only
    split_ifs with hentries
    · have hne : t ≠ u := by
        rintro rfl
        rcases ha with ha | ha
        · exact ha (address_of_tableMap hmap).2
        · rw [getEntries, hbound] at hentries
          rw [getEntries] at ha
          omega
      exact ⟨fun heq => hne (Option.some.inj heq).symm, (Function.update_of_ne hne _ _).trans hbound⟩
    · exact ⟨hnone, hbound⟩

theorem foldl_other (h : s.currentTable ≠ some t) (hl : list.address t ∉ l ∨ 0 < getEntries s.bound t) :
    (l.foldl (visitReloc list) s).currentTable ≠ some t ∧ (l.foldl (visitReloc list) s).bound t = s.bound t := by
  induction l generalizing s with
  | nil => exact ⟨h, rfl⟩
  | cons a l ih =>
    have ha : list.address t ≠ a ∨ 0 < getEntries s.bound t := hl.imp_left fun hl heq => hl (heq ▸ List.mem_cons_self)
    obtain ⟨h', hbound⟩ := visitReloc_other h ha
    have hrest := @ih (visitReloc list s a) h' (by
      rw [getEntries, hbound]
      exact hl.imp_left fun hl hmem => hl (List.mem_cons_of_mem _ hmem))
    exact ⟨hrest.1, hrest.2.trans hbound⟩

/-- The entries of a table whose relocations have been counted. -/
def counted (n : Nat) : Int := if minimum ≤ n then n else 1

theorem counted_pos (n : Nat) : 0 < counted n := by
  unfold counted minimum
  split_ifs <;> omega

theorem finish_current (hc : s.currentTable = some t) (hbound : s.bound t = 0) (hcount : s.count < 2 ^ 31) :
    getEntries s.finish.bound t = counted s.count := by
  unfold Scan.finish setEntries counted getEntries
  simp only [hc]
  by_cases hmin : minimum ≤ s.count
  · have hne : (s.count : Int) - 1 ≠ longMax := by
      unfold longMax
      omega
    simp only [if_pos hmin, Function.update_self, if_neg hne, Int.sub_add_cancel]
  · have hne : (0 : Int) ≠ longMax := by decide
    simp only [if_neg hmin, hbound, if_neg hne, Int.zero_add]

/-- A table without entries starts. -/
theorem visitReloc_start (hmap : tableMap list a = some t) (hentries : getEntries s.finish.bound t ≤ 0) :
    visitReloc list s a = ⟨Function.update s.finish.bound t 0, some t, 1⟩ := by
  unfold visitReloc
  simp only [hmap, if_pos hentries]

/-- A relocation that does not follow ends the run of the current table. -/
theorem visitReloc_ends (hc : s.currentTable = some t) (hbound : s.bound t = 0) (hcount : s.count < 2 ^ 31)
    (ha : ¬ (tableMap list a = none ∧ a = slot list t s.count)) :
    (visitReloc list s a).currentTable ≠ some t ∧ (visitReloc list s a).bound t = s.finish.bound t := by
  have hnone : s.finish.currentTable ≠ some t := by
    rw [finish_currentTable]
    exact Option.some_ne_none t |>.symm
  have hpos := finish_current hc hbound hcount ▸ counted_pos s.count
  unfold visitReloc
  cases hmap : tableMap list a with
  | none =>
    have hslot : a ≠ list.address t + s.count * list.scale t := fun heq => ha ⟨hmap, heq⟩
    simp only [hc, if_neg hslot]
    exact ⟨hnone, trivial⟩
  | some u =>
    dsimp only
    split_ifs with hentries
    · have hne : t ≠ u := by
        rintro rfl
        omega
      exact ⟨fun heq => hne (Option.some.inj heq).symm, Function.update_of_ne hne _ _⟩
    · exact ⟨hnone, rfl⟩

/-- From the start of a table on, the relocations are counted as far as they follow. -/
theorem foldl_current (hc : s.currentTable = some t) (hbound : s.bound t = 0) (hcount : s.count + l.length < 2 ^ 31) :
    getEntries (l.foldl (visitReloc list) s).finish.bound t = counted (follow list t s.count l) := by
  induction l generalizing s with
  | nil => exact finish_current hc hbound hcount
  | cons a l ih =>
    rw [List.length_cons] at hcount
    rw [List.foldl_cons, follow]
    split_ifs with ha
    · have hstep : visitReloc list s a = { s with count := s.count + 1 } := by
        have hslot : a = list.address t + s.count * list.scale t := ha.2
        unfold visitReloc
        simp only [ha.1, hc, if_pos hslot]
      rw [hstep]
      exact ih hc hbound (by dsimp only; omega)
    · obtain ⟨hother, hsame⟩ := visitReloc_ends hc hbound (by omega) ha
      have hentries : getEntries (visitReloc list s a).bound t = counted s.count := by
        rw [getEntries, hsame]
        exact finish_current hc hbound (by omega)
      obtain ⟨hother', hsame'⟩ := foldl_other hother (.inr (hentries ▸ counted_pos s.count)) (l := l)
      rw [getEntries, finish_bound _ hother', hsame']
      exact hentries

/-- A table with an unknown bound: without a relocation at its start it is left alone, else they are counted. -/
theorem visit_getEntries (ht : t ∈ list.tables) (hunknown : bound t = longMax) (hcount : relocs.length < 2 ^ 31) :
    (list.address t ∉ relocs → getEntries (visit list bound relocs) t = -1) ∧
    ∀ pre l, relocs = pre ++ list.address t :: l → list.address t ∉ pre →
      getEntries (visit list bound relocs) t = counted (follow list t 1 l) := by
  have hstart : (⟨bound, none, 0⟩ : Scan τ).currentTable ≠ some t := Option.some_ne_none t |>.symm
  have hnone : getEntries bound t = -1 := if_pos hunknown
  refine ⟨fun hnot => ?_, ?_⟩
  · obtain ⟨hother, hsame⟩ := foldl_other hstart (.inl hnot)
    rw [visit, getEntries, finish_bound _ hother, hsame]
    exact hnone
  · rintro pre l rfl hpre
    obtain ⟨hother, hsame⟩ := foldl_other hstart (.inl hpre)
    have hentries : getEntries (pre.foldl (visitReloc list) ⟨bound, none, 0⟩).finish.bound t = -1 := by
      rw [getEntries, finish_bound _ hother, hsame]
      exact hnone
    have hstep := visitReloc_start (tableMap_address ht) (hentries.trans_le (by decide))
    rw [visit, List.foldl_append, List.foldl_cons, hstep]
    refine foldl_current rfl (Function.update_self ..) ?_
    rw [List.length_append, List.length_cons] at hcount
    dsimp only
    omega

/-! ## Runs -/

omit [DecidableEq τ] in
theorem slot_lt {j : Nat} (t : τ) (h : j < k) : slot list t j < slot list t k :=
  Nat.add_lt_add_left (Nat.mul_lt_mul_of_pos_right h (list.scale_pos t)) _

/-- Every table has a run, of no slots where it has no relocation. -/
theorem exists_isRun (list : JumpTableList τ) (relocs : List Nat) (t : τ) : ∃ n, IsRun list relocs t n := by
  classical
  have hend : ∃ k, ¬ Holds list relocs t k := by
    by_contra hall
    push Not at hall
    have hinj : Function.Injective (slot list t) := StrictMono.injective fun j k hjk => slot_lt t hjk
    have hnodup := (List.nodup_range (n := relocs.length + 1)).map hinj
    have hsub : (List.range (relocs.length + 1)).map (slot list t) ⊆ relocs := by
      intro a ha
      obtain ⟨k, -, rfl⟩ := List.mem_map.1 ha
      exact (hall k).1
    have hle := (hnodup.subperm hsub).length_le
    rw [List.length_map, List.length_range] at hle
    omega
  exact ⟨Nat.find hend, fun k hk => not_not.1 (Nat.find_min hend hk), Nat.find_spec hend⟩

/-- No more relocations are counted than the run has slots. -/
theorem follow_le (hrun : IsRun list relocs t n) (hl : ∀ a ∈ l, a ∈ relocs) (hk : k ≤ n) : follow list t k l ≤ n := by
  induction l generalizing k with
  | nil => exact hk
  | cons a l ih =>
    rw [follow]
    split_ifs with ha
    · refine ih (fun b hb => hl b (List.mem_cons_of_mem _ hb)) (Nat.lt_of_le_of_ne hk ?_)
      rintro rfl
      have hmem := hl a List.mem_cons_self
      have hnone := ha.1
      rw [ha.2] at hmem hnone
      exact hrun.2 ⟨hmem, .inr (tableMap_eq_none.1 hnone)⟩
    · exact hk

theorem le_follow (t : τ) (k : Nat) (l : List Nat) : k ≤ follow list t k l := by
  induction l generalizing k with
  | nil => exact le_rfl
  | cons a l ih =>
    rw [follow]
    split_ifs
    · exact Nat.le_of_succ_le (ih (k + 1))
    · exact le_rfl

/-- All slots are counted when in front of the last one the relocations are those of the slots. -/
theorem le_follow_iff (hsorted : l.Pairwise (· ≤ ·)) (hk : k < n)
    (hslots : ∀ j, k ≤ j → j < n → slot list t j ∈ l ∧ tableMap list (slot list t j) = none) :
    n ≤ follow list t k l ↔
      l.filter (fun a => a < slot list t (n - 1)) = (List.range' k (n - 1 - k)).map (slot list t) := by
  induction l generalizing k with
  | nil => exact absurd (hslots k le_rfl hk).1 List.not_mem_nil
  | cons a l ih =>
    obtain ⟨hle, hsorted⟩ := List.pairwise_cons.1 hsorted
    have hhead : ∀ j, k ≤ j → j < n → a ≤ slot list t j := by
      intro j hj hlt
      rcases List.mem_cons.1 (hslots j hj hlt).1 with heq | hmem
      · exact heq.ge
      · exact hle _ hmem
    rw [follow]
    by_cases ha : a = slot list t k
    · rw [if_pos ⟨ha ▸ (hslots k le_rfl hk).2, ha⟩]
      rcases Nat.lt_or_ge (k + 1) n with hlt | hge
      · have hrest : ∀ j, k + 1 ≤ j → j < n → slot list t j ∈ l ∧ tableMap list (slot list t j) = none := by
          intro j hj hjn
          obtain ⟨hmem, hnone⟩ := hslots j (by omega) hjn
          rcases List.mem_cons.1 hmem with heq | hmem
          · have hlt : slot list t k < slot list t j := slot_lt t (by omega)
            omega
          · exact ⟨hmem, hnone⟩
        have hlast : a < slot list t (n - 1) := ha ▸ slot_lt t (by omega)
        rw [ih hsorted hlt hrest, List.filter_cons_of_pos (by simpa using hlast),
          show n - 1 - k = n - 1 - (k + 1) + 1 by omega, List.range'_succ, List.map_cons, ha, List.cons.injEq,
          and_iff_right rfl]
      · obtain rfl : n = k + 1 := by omega
        refine iff_of_true ?_ ?_
        · exact le_follow ..
        · rw [show k + 1 - 1 - k = 0 by omega, List.range'_zero, List.map_nil, List.filter_eq_nil_iff]
          intro b hb
          have hge : a ≤ b := by
            rcases List.mem_cons.1 hb with rfl | hb
            · exact le_rfl
            · exact hle b hb
          rw [Nat.add_sub_cancel, ← ha]
          simpa using hge
    · rw [if_neg fun h => ha h.2]
      refine iff_of_false (by omega) fun heq => ?_
      have hlt := Nat.lt_of_le_of_ne (hhead k le_rfl hk) ha
      have hlast : a < slot list t (n - 1) := Nat.lt_of_lt_of_le hlt
        (Nat.add_le_add_left (Nat.mul_le_mul_right _ (by omega)) _)
      rw [List.filter_cons_of_pos (by simpa using hlast)] at heq
      cases hn : n - 1 - k with
      | zero =>
        rw [hn] at heq
        cases heq
      | succ d =>
        rw [hn, List.range'_succ, List.map_cons] at heq
        exact ha (List.cons.inj heq).1

/-- Where the relocations from the table to the last slot of the run are: one at each slot. -/
def AtSlots (list : JumpTableList τ) (relocs : List Nat) (t : τ) (n : Nat) : Prop :=
  relocs.filter (fun a => list.address t ≤ a ∧ a < slot list t (n - 1)) = (List.range (n - 1)).map (slot list t)

/-- The bound of a table is right exactly when it has no relocation at all, or a long run without other relocations in it. -/
theorem bounded_iff (hsorted : relocs.Pairwise (· ≤ ·)) (hcount : relocs.length < 2 ^ 31) (ht : t ∈ list.tables)
    (hunknown : bound t = longMax) (hrun : IsRun list relocs t n) :
    Bounded (visit list bound relocs) t n ↔ n = 0 ∨ minimum ≤ n ∧ AtSlots list relocs t n := by
  obtain ⟨hempty, hstart⟩ := visit_getEntries ht hunknown hcount
  have hzero : slot list t 0 = list.address t := by rw [slot, Nat.zero_mul, Nat.add_zero]
  rcases Nat.eq_zero_or_pos n with rfl | hpos
  · refine iff_of_true ?_ (.inl rfl)
    have hnot : list.address t ∉ relocs := fun hmem => hrun.2 ⟨hzero.symm ▸ hmem, .inl rfl⟩
    exact (if_neg (by decide)).mpr (hempty hnot)
  · have hmem : list.address t ∈ relocs := hzero ▸ (hrun.1 0 hpos).1
    obtain ⟨pre, l, heq, hpre⟩ := List.eq_append_cons_of_mem hmem
    have hentries := hstart pre l heq hpre
    have hle : follow list t 1 l ≤ n :=
      follow_le hrun (fun a ha => heq ▸ List.mem_append_right _ (List.mem_cons_of_mem _ ha)) hpos
    have hbounded : Bounded (visit list bound relocs) t n ↔ minimum ≤ n ∧ n ≤ follow list t 1 l := by
      unfold Bounded
      rw [hentries]
      split_ifs with hmin
      · unfold counted minimum at *
        split_ifs <;> omega
      · have := counted_pos (follow list t 1 l)
        exact iff_of_false (by omega) fun h => hmin h.1
    rw [hbounded, or_iff_right (by omega)]
    refine and_congr_right fun hmin => ?_
    have hmin : 5 ≤ n := hmin
    subst heq
    obtain ⟨-, hsorted', hbelow⟩ := List.pairwise_append.1 hsorted
    obtain ⟨habove, hl⟩ := List.pairwise_cons.1 hsorted'
    have hslots : ∀ j, 1 ≤ j → j < n → slot list t j ∈ l ∧ tableMap list (slot list t j) = none := by
      intro j hj hjn
      obtain ⟨hin, hother⟩ := hrun.1 j hjn
      have hlt : list.address t < slot list t j := hzero ▸ slot_lt t hj
      refine ⟨?_, tableMap_eq_none.2 (hother.resolve_left (by omega))⟩
      rcases List.mem_append.1 hin with hin | hin
      · exact absurd (hbelow _ hin _ List.mem_cons_self) (by omega)
      · exact (List.mem_cons.1 hin).resolve_left (by omega)
    rw [le_follow_iff hl (by omega) hslots, AtSlots]
    have hfirst : pre.filter (fun a => list.address t ≤ a ∧ a < slot list t (n - 1)) = [] := by
      refine List.filter_eq_nil_iff.2 fun a ha => ?_
      have hlt := Nat.lt_of_le_of_ne (hbelow a ha _ List.mem_cons_self) fun heq => hpre (heq ▸ ha)
      simp only [decide_eq_true_eq, not_and]
      omega
    have hrest : l.filter (fun a => list.address t ≤ a ∧ a < slot list t (n - 1)) =
        l.filter (fun a => a < slot list t (n - 1)) := by
      refine List.filter_congr fun a ha => ?_
      have := habove a ha
      simp only [this, true_and]
    have hlast : list.address t < slot list t (n - 1) := hzero ▸ slot_lt t (by omega)
    rw [List.filter_append, hfirst, List.nil_append, List.filter_cons_of_pos (by simpa using hlast), hrest,
      List.range_eq_range', show n - 1 = n - 1 - 1 + 1 by omega, List.range'_succ, List.map_cons, hzero, List.cons.injEq,
      and_iff_right rfl]
    rfl

/-! ### Two tables -/

def oneTable : JumpTableList Unit where
  tables := [()]
  address _ := 0x2000
  scale _ := 4
  scale_pos _ := by decide
  distinct _ _ _ _ _ := rfl

theorem oneTable_run {relocs : List Nat} {n : Nat} (hin : ∀ k < n, 0x2000 + k * 4 ∈ relocs) (hn : 0x2000 + n * 4 ∉ relocs) :
    IsRun oneTable relocs () n := by
  refine ⟨fun k hk => ⟨hin k hk, ?_⟩, fun h => hn h.1⟩
  rcases Nat.eq_zero_or_pos k with hk | hk
  · exact .inl hk
  · right
    intro u _
    show 0x2000 ≠ 0x2000 + k * 4
    omega

def fiveSlots : List Nat := [0x2000, 0x2004, 0x2008, 0x200c, 0x2010, 0x2020]

theorem five_slots_bounded : Bounded (visit oneTable (fun _ => longMax) fiveSlots) () 5 := by
  have hrun : IsRun oneTable fiveSlots () 5 := oneTable_run (by decide) (by decide)
  have hsorted : fiveSlots.Pairwise (· ≤ ·) := by decide
  have hslots : AtSlots oneTable fiveSlots () 5 := by
    unfold AtSlots
    decide
  have hmem : () ∈ oneTable.tables := List.mem_singleton.2 rfl
  exact (bounded_iff hsorted (by decide) hmem rfl hrun).2 (.inr ⟨by decide, hslots⟩)

/-- After a run of three the table has one entry. -/
theorem short_run_not_undone : IsRun oneTable [0x2000, 0x2004, 0x2008] () 3 ∧
    getEntries (visit oneTable (fun _ => longMax) [0x2000, 0x2004, 0x2008]) () = 1 ∧
      ¬ Bounded (visit oneTable (fun _ => longMax) [0x2000, 0x2004, 0x2008]) () 3 := by
  have hentries : getEntries (visit oneTable (fun _ => longMax) [0x2000, 0x2004, 0x2008]) () = 1 := by decide
  refine ⟨oneTable_run (by decide) (by decide), hentries, ?_⟩
  rw [Bounded, hentries]
  decide

end Egalito.Pass.JumpTableBounds
