import Egalito.Lib.Align
import Egalito.Lib.Runs
/-!
# The text sections of a module

`makeText` and `makeSymbolsAndRelocs` of `generate/modulegen.cpp`, outside of
kernel mode: each maximal run of pages with code becomes a section, and the
functions get symbols in it. Addresses have 64 bits.
-/

open Egalito.Lib

namespace Egalito.Generate.ModuleText

def page : Nat := 0x1000

structure Function where
  name : String
  address : Nat
  size : Nat
  address_lt : address < 2 ^ 64
  size_pos : 0 < size
  size_lt : size < 2 ^ 64

def Function.getEnd (f : Function) : Nat := f.address + f.size

def blacklistedSymbol (_ : String) : Bool := false

/-! ## The regions -/

/-- The pages that the loop over one function inserts. -/
def Function.pages (f : Function) : List Nat :=
  let start := roundDown page f.address
  let stop := roundDown page ((f.address + f.size + 0xfff) % 2 ^ 64)
  (List.range ((stop - start) / page)).map fun k => start + page * k

def pagesUsed (functions : List Function) : List Nat := (functions.flatMap Function.pages).dedup.insertionSort (· ≤ ·)

def codeRegions (functions : List Function) : List (Nat × Nat) :=
  runs page (pagesUsed functions).length (pagesUsed functions)

/-! ## The sections -/

/-- The generated code: mapped at its addresses, or in the buffer of a backing, from its base on. -/
inductive Code
  | memory (bytes : Nat → UInt8)
  | backing (base : Nat) (buffer : List UInt8)

def Code.byteAt : Code → Nat → Option UInt8
  | .memory bytes, address => some (bytes address)
  | .backing base buffer, address => if base ≤ address then buffer[address - base]? else none

/-- The bytes for a region. A read behind the end of the buffer's string is undefined. -/
def textValue : Code → Nat × Nat → Option (List UInt8)
  | .memory bytes, region => some ((List.range region.2).map fun k => bytes (region.1 + k))
  | .backing _ buffer, region =>
    if region.2 ≤ buffer.length + 1 then some ((buffer ++ [0]).take region.2) else none

/-- `.text`, or `.text.0x…` with the address. -/
inductive SectionName
  | text | textAt (address : Nat)
  deriving DecidableEq, Repr

structure TextSection where
  name : SectionName
  address : Nat
  size : Nat
  content : Option (List UInt8)

def regionName (unique : Bool) (regions : List (Nat × Nat)) (region : Nat × Nat) : SectionName :=
  if regions.length = 1 && !unique then .text else .textAt region.1

/-- The symbols of one section, by the place of their function. -/
def makeSymbolsAndRelocs (functions : List Function) (region : Nat × Nat) (name : SectionName) :
    List (Nat × SectionName) :=
  (List.range functions.length).filterMap fun i => functions[i]?.bind fun f =>
    if blacklistedSymbol f.name then none
    else if f.address < region.1 || (f.address + f.size) % 2 ^ 64 ≥ (region.1 + region.2) % 2 ^ 64 then none
    else some (i, name)

structure Output where
  sections : List TextSection
  symbols : List (Nat × SectionName)

/-- `unique` is the configuration's `uniqueSectionNames`. -/
def makeText (functions : List Function) (unique : Bool) (code : Code) : Output :=
  let regions := codeRegions functions
  ⟨regions.map fun region => ⟨regionName unique regions region, region.1, region.2, textValue code region⟩,
    regions.flatMap fun region => makeSymbolsAndRelocs functions region (regionName unique regions region)⟩

/-! ## What the sections should be -/

/-- A function has bytes in the page. -/
def Used (functions : List Function) (p : Nat) : Prop :=
  page ∣ p ∧ ∃ f ∈ functions, p < f.getEnd ∧ f.address < p + page

def TextSection.Contains (s : TextSection) (f : Function) : Prop :=
  s.address ≤ f.address ∧ f.getEnd ≤ s.address + s.size

structure Exact (functions : List Function) (code : Code) (output : Output) : Prop where
  names : (output.sections.map TextSection.name).Nodup
  aligned : ∀ s ∈ output.sections, page ∣ s.address ∧ page ∣ s.size ∧ 0 < s.size
  disjoint : output.sections.Pairwise fun s t => s.address + s.size ≤ t.address ∨ t.address + t.size ≤ s.address
  used : ∀ s ∈ output.sections, ∀ p, page ∣ p → s.address ≤ p → p < s.address + s.size → Used functions p
  maximal : ∀ s ∈ output.sections, ¬ Used functions (s.address + s.size) ∧
    ∀ p, p + page = s.address → ¬ Used functions p
  inside : ∀ f ∈ functions, ∃! s, s ∈ output.sections ∧ s.Contains f
  content : ∀ s ∈ output.sections, ∃ bytes, s.content = some bytes ∧ bytes.length = s.size ∧
    ∀ k < s.size, bytes[k]? = code.byteAt (s.address + k)
  symbols : ∀ i f, functions[i]? = some f → blacklistedSymbol f.name = false →
    ∃ s ∈ output.sections, s.Contains f ∧ output.symbols.filter (·.1 = i) = [(i, s.name)]

/-- The base and the length of the backing, if there is one. -/
def Code.place : Code → Option (Nat × Nat)
  | .memory _ => none
  | .backing base buffer => some (base, buffer.length)

/-! ## The condition -/

/-- No function reaches the last page of the address space. -/
def Below (functions : List Function) : Prop := ∀ f ∈ functions, f.getEnd ≤ 2 ^ 64 - page

/-- Where a function ends with its page, the next page has code as well. -/
def EndsInside (functions : List Function) : Prop :=
  ∀ f ∈ functions, blacklistedSymbol f.name = false → page ∣ f.getEnd → Used functions f.getEnd

/-- The pages with code are one run from the base of the backing on, and inside of its buffer. -/
def Backed (functions : List Function) (place : Option (Nat × Nat)) : Prop :=
  ∀ base length, place = some (base, length) →
    ∃ n, (∀ p, Used functions p ↔ ∃ k < n, p = base + page * k) ∧ page * n ≤ length

/-! ## When the text sections are exact

The runs of pages are right for all functions below the last page. A function
that ends with its section gets no symbol, and a backing is right for one
section that starts with it.
-/

variable {functions : List Function} {f : Function} {p : Nat} {region region' : Nat × Nat}

theorem page_pos : 0 < page := by decide

/-! ## The pages -/

def Function.stop (f : Function) : Nat := roundDown page ((f.address + f.size + 0xfff) % 2 ^ 64)

theorem stop_le (f : Function) : f.stop ≤ 2 ^ 64 - page := by
  have hdvd : page ∣ f.stop := dvd_roundDown
  have hlt : f.stop < 2 ^ 64 := Nat.lt_of_le_of_lt roundDown_le (Nat.mod_lt _ (by decide))
  unfold page at hdvd ⊢
  omega

theorem mem_pages : p ∈ f.pages ↔ page ∣ p ∧ roundDown page f.address ≤ p ∧ p < f.stop := by
  have hstart : page ∣ roundDown page f.address := dvd_roundDown
  have hstop : page ∣ f.stop := dvd_roundDown
  have hpages : f.pages = (List.range ((f.stop - roundDown page f.address) / page)).map fun k =>
      roundDown page f.address + page * k := rfl
  rw [hpages, List.mem_map]
  constructor
  · rintro ⟨k, hk, rfl⟩
    have hlt := (Nat.lt_div_iff_mul_lt' (Nat.dvd_sub hstop hstart) k).1 (List.mem_range.1 hk)
    exact ⟨Nat.dvd_add hstart (Nat.dvd_mul_right _ _), Nat.le_add_right _ _, by omega⟩
  · rintro ⟨hp, hle, hlt⟩
    obtain ⟨k, hk⟩ := Nat.dvd_sub hp hstart
    refine ⟨k, List.mem_range.2 ?_, by omega⟩
    exact (Nat.lt_div_iff_mul_lt' (Nat.dvd_sub hstop hstart) k).2 (by omega)

theorem mem_pagesUsed : p ∈ pagesUsed functions ↔ ∃ f ∈ functions, p ∈ f.pages := by
  unfold pagesUsed
  rw [List.mem_insertionSort, List.mem_dedup, List.mem_flatMap]

theorem dvd_of_mem (h : p ∈ pagesUsed functions) : page ∣ p := by
  obtain ⟨f, -, hp⟩ := mem_pagesUsed.1 h
  exact (mem_pages.1 hp).1

theorem pagesUsed_pairwise (functions : List Function) : (pagesUsed functions).Pairwise fun p q => p + page ≤ q := by
  have hsorted : (pagesUsed functions).Pairwise (· ≤ ·) := List.pairwise_insertionSort _ _
  have hnodup : (pagesUsed functions).Nodup := (List.perm_insertionSort _ _).nodup_iff.2 (List.nodup_dedup _)
  refine List.Pairwise.imp_of_mem (fun {p q} hp hq hpq => ?_) (hsorted.and hnodup)
  have hdvd := Nat.dvd_sub (dvd_of_mem hq) (dvd_of_mem hp)
  have hle := Nat.le_of_dvd (by omega) hdvd
  omega

theorem codeRegions_runs (functions : List Function) :
    MaximalRuns page (pagesUsed functions) (codeRegions functions) :=
  runs_spec page_pos (pagesUsed_pairwise functions) (le_refl _)

/-- The last page is never used, since the end of its functions wraps around. -/
theorem region_end_le (h : region ∈ codeRegions functions) : region.1 + region.2 ≤ 2 ^ 64 - page := by
  have hruns := codeRegions_runs functions
  obtain ⟨hpos, n, hn⟩ := hruns.sizes region h
  have hnpos : 0 < n := by
    by_contra hzero
    rw [show n = 0 by omega, Nat.mul_zero] at hn
    omega
  have hmul : page * (n - 1) + page = page * n := by rw [← Nat.mul_succ, Nat.succ_eq_add_one, Nat.sub_add_cancel hnpos]
  have hlast : region.1 + page * (n - 1) ∈ pagesUsed functions :=
    (hruns.mem_iff page_pos).2 ⟨region, h, n - 1, rfl, by have := page_pos; omega⟩
  obtain ⟨f, -, hp⟩ := mem_pagesUsed.1 hlast
  have hlt := (mem_pages.1 hp).2.2
  have hdvd := Nat.dvd_sub (show page ∣ f.stop from dvd_roundDown) (mem_pages.1 hp).1
  have hle := Nat.le_of_dvd (by omega) hdvd
  have hstop := stop_le f
  omega

theorem roundDown_le_iff {n m : Nat} (hm : page ∣ m) : roundDown page n ≤ m ↔ n < m + page := by
  obtain ⟨c, rfl⟩ := hm
  unfold roundDown page
  omega

/-- Below the last page, the pages are those with code. -/
theorem mem_pagesUsed_iff (hbelow : Below functions) : p ∈ pagesUsed functions ↔ Used functions p := by
  rw [mem_pagesUsed]
  have hpages : ∀ f ∈ functions, p ∈ f.pages ↔ page ∣ p ∧ p < f.getEnd ∧ f.address < p + page := fun f hf => by
    have hend := hbelow f hf
    have hstop : f.stop = roundUp page f.getEnd := by
      unfold Function.stop Function.getEnd roundUp at *
      rw [Nat.mod_eq_of_lt (by unfold page at hend; omega)]
      rfl
    rw [mem_pages, hstop]
    constructor
    · rintro ⟨hp, hle, hlt⟩
      refine ⟨hp, ?_, (roundDown_le_iff hp).1 hle⟩
      by_contra hge
      exact absurd ((roundUp_le_iff page_pos hp).2 (Nat.le_of_not_lt hge)) (by omega)
    · rintro ⟨hp, hlt, haddress⟩
      refine ⟨hp, (roundDown_le_iff hp).2 haddress, ?_⟩
      by_contra hge
      exact absurd ((roundUp_le_iff page_pos hp).1 (Nat.le_of_not_lt hge)) (by omega)
  unfold Used
  constructor
  · rintro ⟨f, hf, hp⟩
    have := (hpages f hf).1 hp
    exact ⟨this.1, f, hf, this.2⟩
  · rintro ⟨hp, f, hf, hf'⟩
    exact ⟨f, hf, (hpages f hf).2 ⟨hp, hf'⟩⟩

/-! ## The regions -/

def Inside (region : Nat × Nat) (f : Function) : Prop := region.1 ≤ f.address ∧ f.getEnd ≤ region.1 + region.2

theorem region_aligned (h : region ∈ codeRegions functions) : page ∣ region.1 ∧ page ∣ region.2 ∧ 0 < region.2 := by
  have hruns := codeRegions_runs functions
  exact ⟨dvd_of_mem (hruns.start_mem page_pos h), (hruns.sizes region h).2, (hruns.sizes region h).1⟩

theorem mem_pagesUsed_of_region (h : region ∈ codeRegions functions) (hp : page ∣ p) (hle : region.1 ≤ p)
    (hlt : p < region.1 + region.2) : p ∈ pagesUsed functions := by
  obtain ⟨k, hk⟩ := Nat.dvd_sub hp (region_aligned h).1
  exact ((codeRegions_runs functions).mem_iff page_pos).2 ⟨region, h, k, by omega, hlt⟩

theorem exists_region (hbelow : Below functions) (hf : f ∈ functions) : ∃ region ∈ codeRegions functions, Inside region f := by
  have hruns := codeRegions_runs functions
  have hpos := f.size_pos
  have hfirst : Used functions (roundDown page f.address) := by
    refine ⟨dvd_roundDown, f, hf, ?_, lt_roundDown_add page_pos⟩
    have hle : roundDown page f.address ≤ f.address := roundDown_le
    unfold Function.getEnd
    omega
  obtain ⟨region, hregion, k, hk, hlt⟩ := (hruns.mem_iff page_pos).1 ((mem_pagesUsed_iff hbelow).2 hfirst)
  obtain ⟨hstart, hsize, -⟩ := region_aligned hregion
  have hle : roundDown page f.address ≤ f.address := roundDown_le
  refine ⟨region, hregion, by omega, ?_⟩
  -- Otherwise the function also has bytes in the page behind the region.
  by_contra hend
  refine hruns.end_notMem page_pos hregion ((mem_pagesUsed_iff hbelow).2 ⟨Nat.dvd_add hstart hsize, f, hf, by omega, ?_⟩)
  have haddress : f.address < roundDown page f.address + page := lt_roundDown_add page_pos
  omega

theorem region_unique (h : region ∈ codeRegions functions) (h' : region' ∈ codeRegions functions) (hf : Inside region f)
    (hf' : region'.1 ≤ f.address ∧ f.getEnd ≤ region'.1 + region'.2) : region = region' := by
  by_contra hne
  have hpos := f.size_pos
  unfold Inside Function.getEnd at *
  rcases (codeRegions_runs functions).apart_of_ne h h' hne with hapart | hapart <;> omega

/-- A function ends with its region exactly if it ends with a page and the next one is not used. -/
theorem end_eq_iff (hbelow : Below functions) (h : region ∈ codeRegions functions) (hf : Inside region f) :
    f.getEnd = region.1 + region.2 ↔ page ∣ f.getEnd ∧ ¬ Used functions f.getEnd := by
  obtain ⟨hstart, hsize, -⟩ := region_aligned h
  constructor
  · intro heq
    rw [heq, ← mem_pagesUsed_iff hbelow]
    exact ⟨Nat.dvd_add hstart hsize, (codeRegions_runs functions).end_notMem page_pos h⟩
  · rintro ⟨hdvd, hunused⟩
    by_contra hne
    refine hunused ((mem_pagesUsed_iff hbelow).1 (mem_pagesUsed_of_region h hdvd ?_ ?_))
    · have hle := hf.1
      unfold Function.getEnd
      omega
    · exact lt_of_le_of_ne hf.2 hne

/-! ## The symbols -/

/-- A loop over the places that yields at most one entry for each. -/
theorem filter_filterMap_range {α : Type} {g : Nat → Option (Nat × α)} (hg : ∀ j x, g j = some x → x.1 = j) (n i : Nat) :
    ((List.range n).filterMap g).filter (·.1 = i) = if i < n then (g i).toList else [] := by
  induction n with
  | zero => rfl
  | succ n ih =>
    rw [List.range_succ, List.filterMap_append, List.filter_append, ih]
    have hlast : (List.filterMap g [n]).filter (·.1 = i) = if n = i then (g i).toList else [] := by
      cases hn : g n with
      | none =>
        split
        case isTrue heq => simp [hn, ← heq]
        case isFalse => simp [hn]
      | some x =>
        have hx := hg n x hn
        split
        case isTrue heq => simp [hn, hx, ← heq]
        case isFalse hne => simp [hn, hx, hne]
    rw [hlast]
    split
    case isTrue hlt => rw [if_neg (by omega), if_pos (by omega), List.append_nil]
    case isFalse hge =>
      by_cases heq : n = i
      · rw [if_pos heq, if_pos (by omega), List.nil_append]
      · rw [if_neg heq, if_neg (by omega)]
        rfl

theorem filter_makeSymbolsAndRelocs {i : Nat} (hi : functions[i]? = some f) (region : Nat × Nat) (name : SectionName) :
    (makeSymbolsAndRelocs functions region name).filter (·.1 = i) =
      if f.address < region.1 ∨ (f.address + f.size) % 2 ^ 64 ≥ (region.1 + region.2) % 2 ^ 64 then []
      else [(i, name)] := by
  unfold makeSymbolsAndRelocs
  rw [filter_filterMap_range, if_pos (List.getElem?_eq_some_iff.1 hi).1, hi]
  · simp only [Option.bind_some, blacklistedSymbol, Bool.false_eq_true, if_false, Bool.or_eq_true, decide_eq_true_eq]
    split <;> rfl
  · intro j x hx
    obtain ⟨g, -, hg⟩ := Option.bind_eq_some_iff.1 hx
    simp only [blacklistedSymbol, Bool.false_eq_true, if_false] at hg
    split at hg
    · cases hg
    · cases hg
      rfl

/-- The function has a symbol in its own section only, unless it ends with it. -/
theorem filter_symbols (hbelow : Below functions) {i : Nat} (hi : functions[i]? = some f)
    (hregion : region ∈ codeRegions functions) (hf : Inside region f) (unique : Bool) (code : Code) :
    (makeText functions unique code).symbols.filter (·.1 = i) =
      if f.getEnd = region.1 + region.2 then []
      else [(i, regionName unique (codeRegions functions) region)] := by
  have hend := region_end_le hregion
  have hend' := hbelow f (List.mem_of_getElem? hi)
  have hpage := page_pos
  have hmod : (f.address + f.size) % 2 ^ 64 = f.getEnd := Nat.mod_eq_of_lt (by unfold Function.getEnd at hend'; omega)
  have hothers : ∀ other ∈ codeRegions functions, other ≠ region →
      (makeSymbolsAndRelocs functions other (regionName unique (codeRegions functions) other)).filter (·.1 = i) = [] := by
    intro other hother hne
    have hotherEnd := region_end_le hother
    rw [filter_makeSymbolsAndRelocs hi, if_pos]
    by_contra hin
    rw [hmod, Nat.mod_eq_of_lt (by omega)] at hin
    exact hne (region_unique hregion hother hf (by omega)).symm
  have hstart := hf.1
  have hle := hf.2
  unfold makeText
  dsimp only
  rw [List.filter_flatMap, flatMap_eq_of_mem (codeRegions_runs functions).nodup hregion hothers,
    filter_makeSymbolsAndRelocs hi, hmod, Nat.mod_eq_of_lt (by omega)]
  split <;> split <;> first | rfl | omega

/-! ## The content -/

theorem content_memory (bytes : Nat → UInt8) (region : Nat × Nat) :
    ∃ list, textValue (.memory bytes) region = some list ∧ list.length = region.2 ∧
      ∀ k < region.2, list[k]? = (Code.memory bytes).byteAt (region.1 + k) := by
  refine ⟨_, rfl, by simp, fun k hk => ?_⟩
  rw [List.getElem?_map, List.getElem?_range hk]
  rfl

/-- From a backing, a region that starts with it and lies inside of it is right. -/
theorem content_backing {base : Nat} {buffer : List UInt8} (hstart : region.1 = base) (hsize : region.2 ≤ buffer.length) :
    ∃ list, textValue (.backing base buffer) region = some list ∧ list.length = region.2 ∧
      ∀ k < region.2, list[k]? = (Code.backing base buffer).byteAt (region.1 + k) := by
  refine ⟨(buffer ++ [0]).take region.2, ?_, ?_, fun k hk => ?_⟩
  · unfold textValue
    exact if_pos (by omega)
  · rw [List.length_take, List.length_append, List.length_singleton]
    omega
  · unfold Code.byteAt
    dsimp only
    rw [List.getElem?_take_of_lt hk, List.getElem?_append_left (by omega), if_pos (by omega), hstart,
      Nat.add_sub_cancel_left]

/-- The first byte of the buffer tells a region at the base from all others. -/
theorem region_of_content {base length : Nat} (hpos : 0 < region.2)
    (h : ∀ buffer : List UInt8, buffer.length = length →
      ∃ list, textValue (.backing base buffer) region = some list ∧ list.length = region.2 ∧
        ∀ k < region.2, list[k]? = (Code.backing base buffer).byteAt (region.1 + k)) :
    region.1 = base ∧ region.2 ≤ length := by
  have hbyte : ∀ buffer : List UInt8, buffer.length = length → ∀ k < region.2,
      base ≤ region.1 + k ∧ region.1 + k - base < length ∧ (buffer ++ [0])[k]? = buffer[region.1 + k - base]? := by
    intro buffer hlength k hk
    obtain ⟨list, hlist, hsize, hbytes⟩ := h buffer hlength
    have hk' := hbytes k hk
    unfold textValue at hlist
    dsimp only at hlist
    split at hlist
    case isFalse => cases hlist
    case isTrue hle =>
      cases hlist
      unfold Code.byteAt at hk'
      dsimp only at hk'
      rw [List.getElem?_take_of_lt hk, List.getElem?_eq_getElem (by simp; omega)] at hk'
      split at hk'
      case isFalse => cases hk'
      case isTrue hbase =>
        refine ⟨hbase, ?_, ?_⟩
        · rw [← hlength]
          exact (List.getElem?_eq_some_iff.1 hk'.symm).1
        · rw [← hk', List.getElem?_eq_getElem]
  have hfirst := (hbyte (List.replicate length 0) List.length_replicate 0 hpos).2.1
  have hlast := (hbyte (List.replicate length 0) List.length_replicate (region.2 - 1) (by omega)).2.1
  obtain ⟨hbase, -, hequal⟩ := hbyte (1 :: List.replicate (length - 1) 0) (by simp; omega) 0 hpos
  have hstart : region.1 = base := by
    by_contra hne
    obtain ⟨j, hj⟩ : ∃ j, region.1 + 0 - base = j + 1 := ⟨region.1 - base - 1, by omega⟩
    rw [hj, List.getElem?_cons_succ, List.getElem?_replicate] at hequal
    split at hequal
    · exact absurd (Option.some.inj hequal) (by decide)
    · cases hequal
  exact ⟨hstart, by omega⟩

/-! ## The sections -/

def sectionOf (functions : List Function) (unique : Bool) (code : Code) (region : Nat × Nat) : TextSection :=
  ⟨regionName unique (codeRegions functions) region, region.1, region.2, textValue code region⟩

theorem mem_sections {unique : Bool} {code : Code} {s : TextSection} :
    s ∈ (makeText functions unique code).sections ↔ ∃ region ∈ codeRegions functions, sectionOf functions unique code region = s :=
  List.mem_map

theorem names_nodup (functions : List Function) (unique : Bool) (code : Code) :
    ((makeText functions unique code).sections.map TextSection.name).Nodup := by
  have hruns := codeRegions_runs functions
  unfold makeText
  dsimp only
  rw [List.map_map, List.nodup_map_iff_inj_on hruns.nodup]
  intro r hr r' hr' heq
  simp only [Function.comp_apply] at heq
  unfold regionName at heq
  by_contra hne
  split at heq
  case isTrue hone =>
    -- Only a single region has the name without an address.
    simp only [Bool.and_eq_true, decide_eq_true_eq] at hone
    obtain ⟨only, honly⟩ := List.length_eq_one_iff.1 hone.1
    rw [honly] at hr hr'
    exact hne ((List.mem_singleton.1 hr).trans (List.mem_singleton.1 hr').symm)
  case isFalse =>
    have hstart : r.1 = r'.1 := SectionName.textAt.inj heq
    rcases hruns.apart_of_ne hr hr' hne with hlt | hlt <;> omega

/-- Below the last page, all but the symbols and the content is right for any functions. -/
theorem exact_iff (hbelow : Below functions) (unique : Bool) (code : Code) :
    Exact functions code (makeText functions unique code) ↔
      (∀ region ∈ codeRegions functions, ∃ bytes, textValue code region = some bytes ∧ bytes.length = region.2 ∧
        ∀ k < region.2, bytes[k]? = code.byteAt (region.1 + k)) ∧ EndsInside functions := by
  have hruns := codeRegions_runs functions
  have hexists := fun f => exists_region (f := f) hbelow
  constructor
  · intro hexact
    refine ⟨fun region hregion => hexact.content _ (mem_sections.2 ⟨region, hregion, rfl⟩), ?_⟩
    intro f hf hlisted hdvd
    by_contra hunused
    obtain ⟨region, hregion, hinside⟩ := hexists f hf
    obtain ⟨i, hi, rfl⟩ := List.getElem_of_mem hf
    have hi' := List.getElem?_eq_getElem hi
    obtain ⟨s, -, -, hsymbols⟩ := hexact.symbols i _ hi' hlisted
    rw [filter_symbols hbelow hi' hregion hinside, if_pos ((end_eq_iff hbelow hregion hinside).2 ⟨hdvd, hunused⟩)] at hsymbols
    cases hsymbols
  · rintro ⟨hcontent, hends⟩
    constructor
    case names => exact names_nodup functions unique code
    case aligned =>
      intro s hs
      obtain ⟨region, hregion, rfl⟩ := mem_sections.1 hs
      exact region_aligned hregion
    case disjoint =>
      unfold makeText
      dsimp only
      rw [List.pairwise_map]
      exact hruns.apart.imp fun h => .inl h.le
    case used =>
      intro s hs p hp hle hlt
      obtain ⟨region, hregion, rfl⟩ := mem_sections.1 hs
      exact (mem_pagesUsed_iff hbelow).1 (mem_pagesUsed_of_region hregion hp hle hlt)
    case maximal =>
      intro s hs
      obtain ⟨region, hregion, rfl⟩ := mem_sections.1 hs
      refine ⟨fun hused => ?_, fun p hp hused => ?_⟩
      · exact hruns.end_notMem page_pos hregion ((mem_pagesUsed_iff hbelow).2 hused)
      · exact hruns.before_notMem page_pos hregion hp ((mem_pagesUsed_iff hbelow).2 hused)
    case inside =>
      intro f hf
      obtain ⟨region, hregion, hinside⟩ := hexists f hf
      refine ⟨_, ⟨mem_sections.2 ⟨region, hregion, rfl⟩, hinside⟩, ?_⟩
      rintro s ⟨hs, hcontains⟩
      obtain ⟨region', hregion', rfl⟩ := mem_sections.1 hs
      rw [region_unique hregion hregion' hinside hcontains]
    case content =>
      intro s hs
      obtain ⟨region, hregion, rfl⟩ := mem_sections.1 hs
      exact hcontent region hregion
    case symbols =>
      intro i f hi hlisted
      have hf := List.mem_of_getElem? hi
      obtain ⟨region, hregion, hinside⟩ := hexists f hf
      refine ⟨_, mem_sections.2 ⟨region, hregion, rfl⟩, hinside, ?_⟩
      rw [filter_symbols hbelow hi hregion hinside, if_neg]
      · rfl
      · intro hend
        obtain ⟨hdvd, hunused⟩ := (end_eq_iff hbelow hregion hinside).1 hend
        exact hunused (hends f hf hlisted hdvd)

theorem below_of_exact {unique : Bool} {code : Code} (h : Exact functions code (makeText functions unique code)) :
    Below functions := by
  intro f hf
  obtain ⟨s, ⟨hs, hcontains⟩, -⟩ := h.inside f hf
  obtain ⟨region, hregion, rfl⟩ := mem_sections.1 hs
  exact hcontains.2.trans (region_end_le hregion)

/-- All regions start with the backing exactly if the pages are one run from there on. -/
theorem backed_iff (hbelow : Below functions) (base length : Nat) :
    (∀ region ∈ codeRegions functions, region.1 = base ∧ region.2 ≤ length) ↔ Backed functions (some (base, length)) := by
  have hruns := codeRegions_runs functions
  have hused : ∀ p, Used functions p ↔ ∃ region ∈ codeRegions functions, ∃ k, p = region.1 + page * k ∧
      p < region.1 + region.2 := fun p => (mem_pagesUsed_iff hbelow).symm.trans (hruns.mem_iff page_pos)
  constructor
  · rintro hstart _ _ ⟨⟩
    cases hregions : codeRegions functions with
    | nil =>
      refine ⟨0, fun p => ?_, Nat.zero_le _⟩
      rw [hused, hregions]
      simp
    | cons region rest =>
      have hregion : region ∈ codeRegions functions := hregions ▸ List.mem_cons_self
      obtain ⟨hbase, hsize⟩ := hstart region hregion
      obtain ⟨n, hn⟩ := (hruns.sizes region hregion).2
      refine ⟨n, fun p => ?_, by omega⟩
      rw [hused]
      constructor
      · rintro ⟨region', hregion', k, hk, hlt⟩
        have hsame : region' = region := by
          by_contra hne
          have hbase' := (hstart region' hregion').1
          rcases hruns.apart_of_ne hregion' hregion hne with hapart | hapart <;> omega
        subst hsame
        exact ⟨k, Nat.lt_of_mul_lt_mul_left (show page * k < page * n by omega), by omega⟩
      · rintro ⟨k, hk, rfl⟩
        have hlt := Nat.mul_lt_mul_of_pos_left hk page_pos
        exact ⟨region, hregion, k, by omega, by omega⟩
  · intro hbacked region hregion
    obtain ⟨n, hpages, hlength⟩ := hbacked base length rfl
    obtain ⟨hpos, m, hm⟩ := hruns.sizes region hregion
    obtain ⟨k, hk, hstart⟩ := (hpages region.1).1 ((mem_pagesUsed_iff hbelow).1 (hruns.start_mem page_pos hregion))
    -- The page before the region would be used as well.
    have hfirst : k = 0 := by
      by_contra hne
      obtain ⟨j, rfl⟩ : ∃ j, k = j + 1 := ⟨k - 1, by omega⟩
      rw [Nat.mul_succ] at hstart
      have hused' := (hpages (base + page * j)).2 ⟨j, by omega, rfl⟩
      exact hruns.before_notMem page_pos hregion (by omega) ((mem_pagesUsed_iff hbelow).2 hused')
    rw [hfirst, Nat.mul_zero, Nat.add_zero] at hstart
    refine ⟨hstart, Nat.le_trans ?_ hlength⟩
    rw [hm]
    refine Nat.mul_le_mul_left page ?_
    by_contra hlt
    obtain ⟨j, hj, heq⟩ := (hpages (region.1 + page * n)).1 ((hused _).2 ⟨region, hregion, n, rfl, by
      have hmul := Nat.mul_lt_mul_of_pos_left (Nat.lt_of_not_le hlt) page_pos
      omega⟩)
    have hlt' := Nat.mul_lt_mul_of_pos_left hj page_pos
    omega

theorem content_iff (hbelow : Below functions) (place : Option (Nat × Nat)) :
    (∀ code : Code, code.place = place → ∀ region ∈ codeRegions functions, ∃ bytes, textValue code region = some bytes ∧
      bytes.length = region.2 ∧ ∀ k < region.2, bytes[k]? = code.byteAt (region.1 + k)) ↔ Backed functions place := by
  cases place with
  | none =>
    refine ⟨fun _ _ _ h => (nomatch h), fun _ code hplace region _ => ?_⟩
    cases code with
    | memory bytes => exact content_memory bytes region
    | backing base buffer => cases hplace
  | some place =>
    obtain ⟨base, length⟩ := place
    rw [← backed_iff hbelow]
    constructor
    · intro hcontent region hregion
      refine region_of_content (region_aligned hregion).2.2 fun buffer hlength => ?_
      exact hcontent (.backing base buffer) (by rw [← hlength]; rfl) region hregion
    · intro hregions code hplace region hregion
      cases code with
      | memory bytes => cases hplace
      | backing base' buffer =>
        cases hplace
        exact content_backing (hregions region hregion).1 (hregions region hregion).2

/-- A function of one page. -/
def wholePage : Function := ⟨"f", 0x1000, 0x1000, by decide, by decide, by decide⟩

end Egalito.Generate.ModuleText
