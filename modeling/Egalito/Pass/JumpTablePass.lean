import Mathlib.Tactic
/-!
# Jump tables

`pass/jumptablepass.cpp`: the descriptors that the search finds become jump
tables, one for each address, with an entry for each slot. A descriptor for an
address that has a table already can bring another number of entries.
-/

namespace Egalito.Pass.JumpTablePass

variable {χ : Type}

/-- `analysis/jumptable.h`, without the bound, which the pass changes. -/
structure JumpTableDescriptor where
  instruction : Nat
  address : UInt64
  targetBase : UInt64
  scale : Nat
  signedOrZero : Int
  scale_pos : 0 < scale
  scale_le : scale ≤ 8

/-- `LONG_MAX`, the bound that is not known. -/
def longMax : Int := 2 ^ 63 - 1

/-- The descriptors by number, and what the pass reads for them: the bytes of the section at an
address, and the innermost chunk there. A count that is known fits into an `int`. -/
structure Search (χ : Type) where
  descriptor : Nat → JumpTableDescriptor
  bound : Nat → Int
  byte : Nat → UInt64 → UInt8
  findInnermost : UInt64 → Option χ
  fits : ∀ d, bound d = longMax ∨ -2 ^ 31 ≤ bound d + 1 ∧ bound d + 1 < 2 ^ 31

/-- The entry with its data variable. -/
structure JumpTableEntry (χ : Type) where
  address : UInt64
  size : Nat
  target : χ
  deriving DecidableEq, Repr

structure JumpTable (χ : Type) where
  address : UInt64
  descriptor : Nat
  jumpInstructions : List Nat
  children : List (JumpTableEntry χ)

/-- The tables by number, in the order of the list. -/
structure PassState (χ : Type) where
  bound : Nat → Int
  tables : List (JumpTable χ)
  tableMap : UInt64 → Option Nat

variable (search : Search χ)

def PassState.new : PassState χ := ⟨search.bound, [], fun _ => none⟩

def PassState.getEntries (s : PassState χ) (d : Nat) : Int := if s.bound d = longMax then -1 else s.bound d + 1

def PassState.setEntries (s : PassState χ) (d : Nat) (entries : Int) : PassState χ :=
  { s with bound := Function.update s.bound d (entries - 1) }

/-- From `long` to `int`. -/
def toInt (x : Int) : Int := Int.bmod x (2 ^ 32)

/-- To `size_t`. -/
def toSize (x : Int) : Int := x % 2 ^ 64

/-! ## The entries -/

/-- The address of slot `i`. -/
def slot (d : Nat) (i : Nat) : UInt64 :=
  (search.descriptor d).address + UInt64.ofNat (i * (search.descriptor d).scale)

/-- A little-endian number of `n` bytes. -/
def unsignedAt (d : Nat) (address : UInt64) (n : Nat) : Int :=
  ((List.range n).map fun k => (search.byte d (address + UInt64.ofNat k)).toNat * 256 ^ k).sum

/-- The value in a slot; one that is not signed is read as a single byte. -/
def value (d : Nat) (address : UInt64) : Int :=
  if (search.descriptor d).signedOrZero = 1 then
    match (search.descriptor d).scale with
    | 1 => Int.bmod (unsignedAt search d address 1) (2 ^ 8)
    | 2 => Int.bmod (unsignedAt search d address 2) (2 ^ 16)
    | _ => Int.bmod (unsignedAt search d address 4) (2 ^ 32)
  else unsignedAt search d address 1

def target (d : Nat) (address : UInt64) : UInt64 :=
  if (search.descriptor d).signedOrZero = 0 then
    (search.descriptor d).targetBase + UInt64.ofInt (value search d address % 2 ^ 32)
  else (search.descriptor d).targetBase + UInt64.ofInt (value search d address)

def inner (d : Nat) (i : Nat) : Option χ := search.findInnermost (target search d (slot search d i))

/-- The loop of `makeChildren` from slot `i` on, with `left` slots to go: the entries, and the slot
at which it returns if that is not the last one. -/
def makeEntries (d : Nat) : Nat → Nat → List (JumpTableEntry χ) × Option Nat
  | _, 0 => ([], none)
  | i, left + 1 =>
    match inner search d i with
    | none => ([], some i)
    | some chunk =>
      let (entries, stopped) := makeEntries d (i + 1) left
      (⟨slot search d i, (search.descriptor d).scale, chunk⟩ :: entries, stopped)

/-- The table with its new entries, and what is returned. -/
def makeChildren (t : JumpTable χ) (count : Int) : JumpTable χ × Int :=
  let (entries, stopped) := makeEntries search t.descriptor 0 count.toNat
  ({ t with children := t.children ++ entries }, match stopped with | some i => i | none => count)

/-! ## The tables -/

/-- The end of the loop in `makeJumpTable`. -/
def finish (s : PassState χ) (p : Nat) (t : JumpTable χ) (d : Nat) (count : Int) : PassState χ :=
  let t := { t with jumpInstructions := t.jumpInstructions ++ [(search.descriptor d).instruction] }
  let (t, n) := makeChildren search t count
  let s := { s with tables := s.tables.set p t, tableMap := Function.update s.tableMap t.address (some p) }
  if toSize n < toSize count then s.setEntries t.descriptor n else s

/-- What a descriptor changes in a table that exists: its descriptor, and how many slots to make
entries for. -/
def merge (s : PassState χ) (t : JumpTable χ) (d : Nat) : JumpTable χ × Int :=
  let otherCount := s.getEntries t.descriptor
  let thisCount := s.getEntries d
  if otherCount < 0 ∧ thisCount ≥ 0 then ({ t with descriptor := d }, toInt thisCount)
  else if otherCount ≥ 0 ∧ thisCount ≥ 0 then
    if otherCount ≠ thisCount then
      (if thisCount > otherCount then { t with descriptor := d } else t, toInt (max otherCount thisCount))
    else (t, -1)
  else (t, -1)

/-- One round of `makeJumpTable`. -/
def visit (s : PassState χ) (d : Nat) : PassState χ :=
  match s.tableMap (search.descriptor d).address with
  | some p =>
    match s.tables[p]? with
    | none => s
    | some t =>
      if t.descriptor = d then s
      else
        let (t, count) := merge s t d
        finish search s p t d count
  | none =>
    let t := ⟨(search.descriptor d).address, d, [], []⟩
    finish search { s with tables := s.tables ++ [t] } s.tables.length t d (toInt (s.getEntries d))

/-- The descriptors of one call of `makeJumpTable`, or of several ones after another. -/
def makeJumpTable (descriptors : List Nat) : PassState χ := descriptors.foldl (visit search) (.new search)

/-! ## What the tables shall be -/

/-- The descriptors for an address. -/
def givenFor (descriptors : List Nat) (a : UInt64) : List Nat :=
  descriptors.filter fun d => (search.descriptor d).address = a

/-- The largest known number of entries, none if no number is known. -/
def largest (descriptors : List Nat) (s : PassState χ) (a : UInt64) : Nat :=
  ((givenFor search descriptors a).map fun d => (s.getEntries d).toNat).foldr max 0

structure Exact (descriptors : List Nat) (s : PassState χ) : Prop where
  nodup : (s.tables.map JumpTable.address).Nodup
  address : ∀ a, a ∈ s.tables.map JumpTable.address ↔ ∃ d ∈ descriptors, (search.descriptor d).address = a
  entries : ∀ t ∈ s.tables, ∃ d ∈ givenFor search descriptors t.address,
    t.children.map JumpTableEntry.address = (List.range (largest search descriptors s t.address)).map (slot search d)

/-- Before a descriptor is processed: where its number of entries and that of its table are known
and differ, the table has no entries yet, or the first slot of the larger one has no target. -/
def Clear (s : PassState χ) (d : Nat) : Prop :=
  ∀ p t, s.tableMap (search.descriptor d).address = some p → s.tables[p]? = some t → t.descriptor ≠ d →
    0 ≤ s.getEntries t.descriptor → 0 ≤ s.getEntries d → s.getEntries t.descriptor ≠ s.getEntries d →
    t.children = [] ∨ inner search (if s.getEntries d > s.getEntries t.descriptor then d else t.descriptor) 0 = none

/-! ## The entries of one call -/

variable {search} {s s' : PassState χ} {t : JumpTable χ} {d : Nat}

variable (search) in
/-- The slots up to the first that has no target. -/
theorem makeEntries_spec (d i left : Nat) : ∃ n ≤ left,
    (makeEntries search d i left).1.map JumpTableEntry.address = (List.range' i n).map (slot search d) ∧
    ((makeEntries search d i left).2 = none ∧ n = left ∨ (makeEntries search d i left).2 = some (i + n) ∧ n < left) ∧
    (0 < left → (n = 0 ↔ inner search d i = none)) := by
  induction left generalizing i with
  | zero => exact ⟨0, Nat.le_refl _, rfl, .inl ⟨rfl, rfl⟩, fun h => absurd h (Nat.lt_irrefl _)⟩
  | succ left ih =>
    unfold makeEntries
    cases hinner : inner search d i with
    | none => exact ⟨0, Nat.zero_le _, rfl, .inr ⟨rfl, Nat.succ_pos _⟩, fun _ => by simp⟩
    | some chunk =>
      obtain ⟨n, hn, hentries, hstop, -⟩ := ih (i + 1)
      refine ⟨n + 1, by omega, ?_, ?_, fun _ => by simp⟩
      · rw [List.range'_succ, List.map_cons, List.map_cons, hentries]
      · rcases hstop with ⟨hnone, rfl⟩ | ⟨hsome, hlt⟩
        · exact .inl ⟨hnone, rfl⟩
        · exact .inr ⟨by rw [hsome]; congr 1; omega, by omega⟩

variable (search) in
theorem makeChildren_spec (t : JumpTable χ) {count : Int} (hcount : 0 ≤ count) : ∃ n : Nat, n ≤ count ∧
    (makeChildren search t count).2 = n ∧
    (makeChildren search t count).1.address = t.address ∧
    (makeChildren search t count).1.descriptor = t.descriptor ∧
    (makeChildren search t count).1.children.map JumpTableEntry.address =
      t.children.map JumpTableEntry.address ++ (List.range n).map (slot search t.descriptor) ∧
    (0 < count → (n = 0 ↔ inner search t.descriptor 0 = none)) := by
  obtain ⟨n, hn, hentries, hstop, hfirst⟩ := makeEntries_spec search t.descriptor 0 count.toNat
  refine ⟨n, by omega, ?_, rfl, rfl, ?_, fun hpos => hfirst (by omega)⟩
  · rcases hstop with ⟨hnone, rfl⟩ | ⟨hsome, -⟩
    · simp only [makeChildren, hnone]
      omega
    · simp only [makeChildren, hsome]
      omega
  · simp only [makeChildren, List.map_append, hentries, List.range_eq_range']

theorem makeChildren_of_neg (t : JumpTable χ) {count : Int} (hcount : count < 0) :
    makeChildren search t count = (t, count) := by
  have hzero : count.toNat = 0 := by omega
  simp [makeChildren, hzero, makeEntries]

theorem getEntries_setEntries (s : PassState χ) (u : Nat) {n : Int} (hn : n < 2 ^ 31) (d : Nat) :
    (s.setEntries u n).getEntries d = if d = u then n else s.getEntries d := by
  unfold PassState.getEntries PassState.setEntries
  by_cases hd : d = u
  · have hne : n - 1 ≠ longMax := by unfold longMax; omega
    simp [hd, hne]
  · simp [hd]

theorem toInt_eq {x : Int} (h : -2 ^ 31 ≤ x ∧ x < 2 ^ 31) : toInt x = x := by
  unfold toInt
  exact Int.bmod_eq_of_le (by omega) (by omega)

/-! ## The table of an address -/

def PassState.tableAt (s : PassState χ) (a : UInt64) : Option (JumpTable χ) := (s.tableMap a).bind fun p => s.tables[p]?

/-- The map leads to the tables, and to all of them. -/
structure WellMapped (s : PassState χ) : Prop where
  listed : ∀ p (t : JumpTable χ), s.tables[p]? = some t → s.tableMap t.address = some p
  points : ∀ a p, s.tableMap a = some p → ∃ t : JumpTable χ, s.tables[p]? = some t ∧ t.address = a

/-- The table of one address is set. -/
def Puts (s : PassState χ) (t : JumpTable χ) (s' : PassState χ) : Prop :=
  ∀ a, s'.tableAt a = if a = t.address then some t else s.tableAt a

theorem wellMapped_set (h : WellMapped s) {p : Nat} (hp : s.tableMap t.address = some p)
    (htables : s'.tables = s.tables.set p t) (hmap : s'.tableMap = Function.update s.tableMap t.address (some p)) :
    WellMapped s' ∧ Puts s t s' := by
  obtain ⟨t₀, ht₀, haddress₀⟩ := h.points _ _ hp
  have hlt := (List.getElem?_eq_some_iff.1 ht₀).1
  rw [← hp, Function.update_eq_self] at hmap
  have hget : s'.tables[p]? = some t := by rw [htables, List.getElem?_set_self hlt]
  have hother : ∀ q, q ≠ p → s'.tables[q]? = s.tables[q]? := fun q hq => by
    rw [htables, List.getElem?_set_ne (Ne.symm hq)]
  refine ⟨⟨fun q t₁ ht₁ => ?_, fun a q hq => ?_⟩, fun a => ?_⟩
  · rw [hmap]
    by_cases hqp : q = p
    · subst hqp
      rw [hget] at ht₁
      cases ht₁
      exact hp
    · rw [hother q hqp] at ht₁
      exact h.listed q t₁ ht₁
  · rw [hmap] at hq
    obtain ⟨t₁, ht₁, rfl⟩ := h.points a q hq
    by_cases hqp : q = p
    · subst hqp
      rw [ht₀] at ht₁
      cases ht₁
      exact ⟨t, hget, haddress₀.symm⟩
    · exact ⟨t₁, by rw [hother q hqp, ht₁], rfl⟩
  · unfold PassState.tableAt
    rw [hmap]
    split
    case isTrue ha => rw [ha, hp, Option.bind_some, hget]
    case isFalse ha =>
      cases hq : s.tableMap a with
      | none => rfl
      | some q =>
        refine hother q fun hqp => ha ?_
        obtain ⟨t₁, ht₁, rfl⟩ := h.points a q hq
        rw [hqp, ht₀] at ht₁
        cases ht₁
        exact haddress₀

theorem wellMapped_push (h : WellMapped s) (hp : s.tableMap t.address = none) (htables : s'.tables = s.tables ++ [t])
    (hmap : s'.tableMap = Function.update s.tableMap t.address (some s.tables.length)) :
    WellMapped s' ∧ Puts s t s' := by
  have hfresh : ∀ q (t₁ : JumpTable χ), s.tables[q]? = some t₁ → t₁.address ≠ t.address := fun q t₁ ht₁ heq => by
    have hlisted := h.listed q t₁ ht₁
    rw [heq, hp] at hlisted
    cases hlisted
  have hget : s'.tables[s.tables.length]? = some t := by rw [htables, List.getElem?_concat_length]
  have hold : ∀ q t₁, s.tables[q]? = some t₁ → s'.tables[q]? = some t₁ := fun q t₁ ht₁ => by
    rw [htables, List.getElem?_append_left (List.getElem?_eq_some_iff.1 ht₁).1, ht₁]
  refine ⟨⟨fun q t₁ ht₁ => ?_, fun a q hq => ?_⟩, fun a => ?_⟩
  · rw [htables, List.getElem?_append] at ht₁
    split at ht₁
    · rw [hmap, Function.update_of_ne (hfresh q t₁ ht₁)]
      exact h.listed q t₁ ht₁
    · rw [List.getElem?_singleton] at ht₁
      split at ht₁
      case isTrue hq hlast =>
        cases ht₁
        rw [hmap, Function.update_self, show q = s.tables.length by omega]
      case isFalse => cases ht₁
  · rw [hmap, Function.update_apply] at hq
    split at hq
    case isTrue ha =>
      cases hq
      exact ⟨t, hget, ha.symm⟩
    case isFalse =>
      obtain ⟨t₁, ht₁, ha⟩ := h.points a q hq
      exact ⟨t₁, hold q t₁ ht₁, ha⟩
  · unfold PassState.tableAt
    rw [hmap, Function.update_apply]
    split
    · exact hget
    · cases hq : s.tableMap a with
      | none => rfl
      | some q =>
        obtain ⟨t₁, ht₁, -⟩ := h.points a q hq
        change s'.tables[q]? = s.tables[q]?
        rw [hold q t₁ ht₁, ht₁]

theorem tableAt_eq_some (h : WellMapped s) {a : UInt64} : s.tableAt a = some t ↔ t ∈ s.tables ∧ t.address = a := by
  unfold PassState.tableAt
  rw [Option.bind_eq_some_iff]
  constructor
  · rintro ⟨p, hp, ht⟩
    obtain ⟨t₁, ht₁, ha⟩ := h.points a p hp
    rw [ht] at ht₁
    cases ht₁
    exact ⟨List.mem_of_getElem? ht, ha⟩
  · rintro ⟨ht, rfl⟩
    obtain ⟨p, hp⟩ := List.getElem?_of_mem ht
    exact ⟨p, h.listed p t hp, hp⟩

theorem nodup_addresses (h : WellMapped s) : (s.tables.map JumpTable.address).Nodup := by
  rw [List.nodup_iff_getElem?_ne_getElem?]
  intro p q hpq hq heq
  rw [List.length_map] at hq
  rw [List.getElem?_map, List.getElem?_map, List.getElem?_eq_getElem (by omega), List.getElem?_eq_getElem hq,
    Option.map_some, Option.map_some, Option.some.injEq] at heq
  have hp := h.listed p _ (List.getElem?_eq_getElem (by omega))
  have hq := h.listed q _ (List.getElem?_eq_getElem hq)
  rw [heq, hq] at hp
  exact absurd (Option.some.inj hp) (by omega)

/-! ## One round -/

variable (search) in
/-- The number of entries that a round makes for `u`, which is then its known count. -/
structure Fills (s : PassState χ) (u n : Nat) (s' : PassState χ) : Prop where
  le : (n : Int) ≤ s.getEntries u
  entries : ∀ d, s'.getEntries d = if d = u then (n : Int) else s.getEntries d
  first : 0 < s.getEntries u → (n = 0 ↔ inner search u 0 = none)

def SmallCounts (s : PassState χ) : Prop := ∀ d, -2 ^ 31 ≤ s.getEntries d ∧ s.getEntries d < 2 ^ 31

variable (search) in
theorem finish_tables (s : PassState χ) (p : Nat) (t : JumpTable χ) (d : Nat) (count : Int) :
    ∃ made, made = makeChildren search { t with
        jumpInstructions := t.jumpInstructions ++ [(search.descriptor d).instruction] } count ∧
      (finish search s p t d count).tables = s.tables.set p made.1 ∧
      (finish search s p t d count).tableMap = Function.update s.tableMap made.1.address (some p) ∧
      ∀ d', (finish search s p t d count).getEntries d' =
        (if toSize made.2 < toSize count then s.setEntries made.1.descriptor made.2 else s).getEntries d' := by
  refine ⟨_, rfl, ?_⟩
  unfold finish
  dsimp only
  split
  · exact ⟨rfl, rfl, fun _ => rfl⟩
  · exact ⟨rfl, rfl, fun _ => rfl⟩

variable (search) in
/-- A round that makes entries, for the descriptor that the table has then. -/
theorem finish_fills (d p : Nat) (hsmall : SmallCounts s) (hcount : 0 ≤ s.getEntries t.descriptor) :
    ∃ n t', Fills search s t.descriptor n (finish search s p t d (s.getEntries t.descriptor)) ∧
      t'.address = t.address ∧ t'.descriptor = t.descriptor ∧
      t'.children.map JumpTableEntry.address =
        t.children.map JumpTableEntry.address ++ (List.range n).map (slot search t.descriptor) ∧
      (finish search s p t d (s.getEntries t.descriptor)).tables = s.tables.set p t' ∧
      (finish search s p t d (s.getEntries t.descriptor)).tableMap = Function.update s.tableMap t'.address (some p) := by
  obtain ⟨made, hmade, htables, hmap, hentries⟩ :=
    finish_tables search s p t d (s.getEntries t.descriptor)
  obtain ⟨n, hn, hret, haddress, hdescriptor, hchildren, hfirst⟩ := makeChildren_spec search
    { t with jumpInstructions := t.jumpInstructions ++ [(search.descriptor d).instruction] } hcount
  rw [← hmade] at hret haddress hdescriptor hchildren
  have hlt := (hsmall t.descriptor).2
  refine ⟨n, made.1, ⟨hn, fun d' => ?_, hfirst⟩, haddress, hdescriptor, hchildren, htables, hmap⟩
  rw [hentries, hret]
  have hsize : toSize n < toSize (s.getEntries t.descriptor) ↔ (n : Int) < s.getEntries t.descriptor := by
    unfold toSize
    rw [Int.emod_eq_of_lt (by omega) (by omega), Int.emod_eq_of_lt (by omega) (by omega)]
  split
  case isTrue h =>
    rw [getEntries_setEntries s _ (by omega), hdescriptor]
  case isFalse h =>
    have hall : (n : Int) = s.getEntries t.descriptor := by
      rw [hsize] at h
      omega
    split
    case isTrue hd => rw [hd, hall]
    case isFalse => rfl

variable (search) in
theorem finish_quiet (d p : Nat) (t : JumpTable χ) {count : Int} (hcount : count < 0) :
    ∃ t', t'.address = t.address ∧ t'.descriptor = t.descriptor ∧ t'.children = t.children ∧
      (finish search s p t d count).tables = s.tables.set p t' ∧
      (finish search s p t d count).tableMap = Function.update s.tableMap t'.address (some p) ∧
      ∀ d', (finish search s p t d count).getEntries d' = s.getEntries d' := by
  obtain ⟨made, hmade, htables, hmap, hentries⟩ := finish_tables search s p t d count
  rw [makeChildren_of_neg _ hcount] at hmade
  rw [hmade] at htables hmap hentries
  refine ⟨_, ?_, ?_, ?_, htables, hmap, fun d' => ?_⟩
  · rfl
  · rfl
  · rfl
  · rw [hentries, if_neg (lt_irrefl _)]

variable (search) in
/-- What a round does with the table of the descriptor's address. -/
inductive Round (s : PassState χ) (d : Nat) (s' : PassState χ) : Prop
  | again (t : JumpTable χ) : s.tableAt (search.descriptor d).address = some t → t.descriptor = d → s' = s → Round s d s'
  | quiet (t t' : JumpTable χ) : s.tableAt (search.descriptor d).address = some t → t.descriptor ≠ d →
    (s.getEntries d < 0 ∨ s.getEntries t.descriptor = s.getEntries d) →
    Puts s t' s' → t'.address = (search.descriptor d).address → t'.descriptor = t.descriptor →
    t'.children = t.children → (∀ d', s'.getEntries d' = s.getEntries d') → Round s d s'
  | extend (t t' : JumpTable χ) (n : Nat) : s.tableAt (search.descriptor d).address = some t → t.descriptor ≠ d →
    0 ≤ s.getEntries d → s.getEntries t.descriptor ≠ s.getEntries d →
    t'.descriptor = (if s.getEntries d > s.getEntries t.descriptor then d else t.descriptor) →
    Puts s t' s' → t'.address = (search.descriptor d).address → Fills search s t'.descriptor n s' →
    t'.children.map JumpTableEntry.address =
      t.children.map JumpTableEntry.address ++ (List.range n).map (slot search t'.descriptor) → Round s d s'
  | create (t' : JumpTable χ) (n : Nat) : s.tableAt (search.descriptor d).address = none → 0 ≤ s.getEntries d →
    t'.descriptor = d → Puts s t' s' → t'.address = (search.descriptor d).address → Fills search s d n s' →
    t'.children.map JumpTableEntry.address = (List.range n).map (slot search d) → Round s d s'
  | createEmpty (t' : JumpTable χ) : s.tableAt (search.descriptor d).address = none → s.getEntries d < 0 →
    t'.descriptor = d → Puts s t' s' → t'.address = (search.descriptor d).address → t'.children = [] →
    (∀ d', s'.getEntries d' = s.getEntries d') → Round s d s'

/-- The descriptor that the table gets and the count for which entries are made. -/
theorem merge_cases (hsmall : SmallCounts s) (t : JumpTable χ) (d : Nat) :
    ((s.getEntries d < 0 ∨ s.getEntries t.descriptor = s.getEntries d) ∧ merge s t d = (t, -1)) ∨
    (0 ≤ s.getEntries d ∧ s.getEntries t.descriptor ≠ s.getEntries d ∧
      ∃ t₁ : JumpTable χ, merge s t d = (t₁, s.getEntries t₁.descriptor) ∧ t₁.address = t.address ∧
        t₁.children = t.children ∧
        t₁.descriptor = if s.getEntries d > s.getEntries t.descriptor then d else t.descriptor) := by
  unfold merge
  dsimp only
  split
  case isTrue h =>
    refine .inr ⟨h.2, by omega, { t with descriptor := d }, ?_, rfl, rfl, ?_⟩
    · rw [toInt_eq (hsmall d)]
    · rw [if_pos (by omega)]
  case isFalse h =>
    split
    case isTrue hboth =>
      split
      case isTrue hne =>
        refine .inr ⟨hboth.2, hne, ?_⟩
        by_cases hgt : s.getEntries d > s.getEntries t.descriptor
        · refine ⟨{ t with descriptor := d }, ?_, rfl, rfl, by rw [if_pos hgt]⟩
          rw [if_pos hgt, max_eq_right (by omega), toInt_eq (hsmall d)]
        · refine ⟨t, ?_, rfl, rfl, by rw [if_neg hgt]⟩
          rw [if_neg hgt, max_eq_left (by omega), toInt_eq (hsmall _)]
      case isFalse heq => exact .inl ⟨.inr (not_not.1 heq), rfl⟩
    case isFalse hboth => exact .inl ⟨.inl (by omega), rfl⟩

variable (search) in
theorem visit_round (h : WellMapped s) (hsmall : SmallCounts s) (d : Nat) :
    WellMapped (visit search s d) ∧ Round search s d (visit search s d) := by
  unfold visit
  cases hp : s.tableMap (search.descriptor d).address with
  | none =>
    have hnone : s.tableAt (search.descriptor d).address = none := by rw [PassState.tableAt, hp]; rfl
    let t₀ : JumpTable χ := ⟨(search.descriptor d).address, d, [], []⟩
    let s₀ : PassState χ := { s with tables := s.tables ++ [t₀] }
    have hlast : ∀ t' : JumpTable χ, s₀.tables.set s.tables.length t' = s.tables ++ [t'] := fun t' => by simp [s₀]
    dsimp only
    rw [toInt_eq (hsmall d)]
    by_cases hcount : 0 ≤ s.getEntries d
    · obtain ⟨n, t', hfills, ha, hd, hc, htables, hmap⟩ :=
        finish_fills search (s := s₀) (t := t₀) d s.tables.length hsmall hcount
      rw [hlast] at htables
      obtain ⟨hmapped, hputs⟩ := wellMapped_push h (ha ▸ hp) htables (ha ▸ hmap)
      exact ⟨hmapped, .create t' n hnone hcount hd hputs ha ⟨hfills.le, hfills.entries, hfills.first⟩ hc⟩
    · obtain ⟨t', ha, hd, hc, htables, hmap, hentries⟩ :=
        finish_quiet search (s := s₀) d s.tables.length t₀ (Int.lt_of_not_ge hcount)
      rw [hlast] at htables
      obtain ⟨hmapped, hputs⟩ := wellMapped_push h (ha ▸ hp) htables (ha ▸ hmap)
      exact ⟨hmapped, .createEmpty t' hnone (Int.lt_of_not_ge hcount) hd hputs ha hc hentries⟩
  | some p =>
    obtain ⟨t, ht, haddress⟩ := h.points _ _ hp
    have hat : s.tableAt (search.descriptor d).address = some t := by rw [PassState.tableAt, hp]; exact ht
    simp only [ht]
    by_cases hsame : t.descriptor = d
    · rw [if_pos hsame]
      exact ⟨h, .again t hat hsame rfl⟩
    · rw [if_neg hsame]
      rcases merge_cases hsmall t d with ⟨hquiet, hmerge⟩ | ⟨hknown, hne, t₁, hmerge, haddress₁, hchildren₁, hdescriptor₁⟩
      · rw [hmerge]
        obtain ⟨t', ha', hd', hc', htables, hmap, hentries⟩ :=
          finish_quiet search (s := s) d p t (show (-1 : Int) < 0 by decide)
        have ha : t'.address = (search.descriptor d).address := ha'.trans haddress
        obtain ⟨hmapped, hputs⟩ := wellMapped_set h (ha ▸ hp) htables hmap
        exact ⟨hmapped, .quiet t t' hat hsame hquiet hputs ha hd' hc' hentries⟩
      · rw [hmerge]
        have hcount : 0 ≤ s.getEntries t₁.descriptor := by
          rw [hdescriptor₁]
          split <;> omega
        obtain ⟨n, t', hfills, ha', hd', hc', htables, hmap⟩ := finish_fills search d p hsmall hcount
        have ha : t'.address = (search.descriptor d).address := (ha'.trans haddress₁).trans haddress
        obtain ⟨hmapped, hputs⟩ := wellMapped_set h (ha ▸ hp) htables hmap
        rw [← hd'] at hfills hdescriptor₁ hc'
        rw [hchildren₁] at hc'
        refine ⟨hmapped, .extend t t' n hat hsame hknown hne hdescriptor₁ hputs ha ?_ hc'⟩
        rwa [hd'] at hfills ⊢

end Egalito.Pass.JumpTablePass
