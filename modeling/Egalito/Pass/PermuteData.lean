import Egalito.Lib.Rearrange
import Mathlib.Data.Set.Function
/-!
# Permuting the variables of `.data`

`pass/permutedata.cpp`: the data section is cut at its global variables, and the
pieces are written to a new section in a random order.
-/

open Egalito.Lib

namespace Egalito.Pass.PermuteData

/-- Variables are compared by their identity. -/
structure GlobalVariable where
  id : Nat
  address : Nat
  size : Nat
  deriving DecidableEq, Repr

def GlobalVariable.getEnd (v : GlobalVariable) : Nat := v.address + v.size

def GlobalVariable.contains (v : GlobalVariable) (address : Nat) : Bool :=
  v.address ≤ address && address < v.getEnd

/-- The section `.data`, with the bytes of its region. Its variables are those that
`CollectGlobalsPass` finds inside of it. -/
structure DataSection where
  address : Nat
  size : Nat
  originalOffset : Nat
  bytes : List UInt8
  globalVariables : List GlobalVariable
  contained : ∀ v ∈ globalVariables, address ≤ v.address ∧ v.address < address + size
  initialized : originalOffset + size ≤ bytes.length

/-- Of each function, the targets of its `DataOffsetLink`s. -/
structure Module where
  data : DataSection
  globals : List GlobalVariable
  functions : List (List Nat)

/-! ## The pieces -/

/-- The variables that a function touches, by the address that it touches. -/
def touched (globals : List GlobalVariable) (targets : List Nat) : List GlobalVariable :=
  (targets.dedup.insertionSort (· ≤ ·)).filterMap fun target => globals.reverse.find? (·.contains target)

def adjacent : List GlobalVariable → List GlobalVariable
  | last :: cur :: rest => (if last.getEnd = cur.address then [cur] else []) ++ adjacent (cur :: rest)
  | _ => []

/-- Variables that stay with the one before. -/
def ignore (m : Module) : List GlobalVariable := m.functions.flatMap fun targets => adjacent (touched m.globals targets)

def splitting (m : Module) : List GlobalVariable := m.data.globalVariables.filter (· ∉ ignore m)

def splitPoints (m : Module) : List Nat := ((splitting m).map (·.address)).dedup.insertionSort (· ≤ ·)

def lastVariable (m : Module) : Option GlobalVariable :=
  (splitting m).foldl (fun last v => if (last.elim 0 (·.address)) < v.address then some v else last) none

structure Piece where
  start : Nat
  stop : Nat
  deriving DecidableEq, Repr

def Piece.size (p : Piece) : Nat := p.stop - p.start

/-- `Range::fromEndpoints` asserts the order. -/
def fromEndpoints (start stop : Nat) : Option Piece := if start ≤ stop then some ⟨start, stop⟩ else none

def rangesFrom (size : Nat) : Nat → List Nat → Option (List Piece)
  | prev, [] => if prev ≠ size then (fromEndpoints prev size).map fun p => [p] else some []
  | prev, addr :: rest => do
    let p ← fromEndpoints prev addr
    let ps ← rangesFrom size addr rest
    return p :: ps

def ranges (m : Module) : Option (List Piece) :=
  rangesFrom m.data.size 0 ((splitPoints m).map (· - m.data.address))

/-! ## The layout -/

/-- `std::random_shuffle` -/
structure Shuffle where
  apply : List Piece → List Piece
  perm : ∀ l, (apply l).Perm l

def place (state : Nat × (Nat → Option Piece)) (nr : Piece) : Nat × (Nat → Option Piece) :=
  let newend := state.1 + nr.size
  (newend, Function.update state.2 nr.start (some ⟨state.1, newend⟩))

/-- `newlayout`, by the old start of a piece. -/
def newLayout (shuffle : List Piece) : Nat → Option Piece := (shuffle.foldl place (0, fun _ => none)).2

/-- The last key that is not above the offset. It asserts that there is one. -/
def newOffset (newlayout : Nat → Option Piece) (offset : Nat) : Option Nat :=
  let key := Nat.findGreatest (fun k => (newlayout k).isSome) offset
  (newlayout key).map fun r => r.start + (offset - key)

/-- `std::copy` of a piece to `lastend`. -/
def copy (old : List UInt8) (state : Nat × List UInt8) (nr : Piece) : Nat × List UInt8 :=
  let newend := state.1 + nr.size
  (newend, state.2.take state.1 ++ (old.drop nr.start).take nr.size ++ state.2.drop newend)

def newData (s : DataSection) (shuffle : List Piece) : List UInt8 :=
  (shuffle.foldl (copy (s.bytes.drop s.originalOffset)) (0, List.replicate s.size 0)).2

structure Permuted where
  newlayout : Nat → Option Piece
  bytes : List UInt8

/-- Without a last variable the pass returns early. -/
def permute (m : Module) (shuffle : Shuffle) : Option Permuted := do
  let _ ← lastVariable m
  let pieces ← ranges m
  return ⟨newLayout (shuffle.apply pieces), newData m.data (shuffle.apply pieces)⟩

/-! ## Where the bytes of `.data` go

Read in the new order, the offsets of the pieces are a permutation of the
offsets of the section, and `newOffset` has to be its inverse. The pieces are
found by their start: it is the inverse unless an empty piece hides another one.
-/

variable {m : Module} {shuffle front back pieces : List Piece} {p q : Piece} {size prev : Nat}

/-- Bijective on the offsets, and every byte where its offset goes. -/
def Exact (s : DataSection) (result : Permuted) : Prop :=
  ∃ f : Nat → Nat, (∀ o < s.size, newOffset result.newlayout o = some (f o)) ∧
    Set.BijOn f (Set.Iio s.size) (Set.Iio s.size) ∧ result.bytes.length = s.size ∧
    ∀ o < s.size, result.bytes[f o]? = s.bytes[s.originalOffset + o]?

/-! ## The cut -/

theorem rangesFrom_spec {l : List Nat} (hsorted : (prev :: l).Pairwise (· < ·)) (hl : ∀ a ∈ prev :: l, a < size) :
    ∃ pieces, rangesFrom size prev l = some pieces ∧ Consecutive Piece.start Piece.size prev pieces ∧
      (pieces.map Piece.size).sum = size - prev ∧ ∀ p ∈ pieces, p.start < p.stop := by
  induction l generalizing prev with
  | nil =>
    have hprev : prev < size := hl prev List.mem_cons_self
    refine ⟨[⟨prev, size⟩], ?_, ⟨rfl, trivial⟩, ?_, ?_⟩
    · simp [rangesFrom, fromEndpoints, hprev.ne, hprev.le]
    · simp [Piece.size]
    · simpa using hprev
  | cons a l ih =>
    have hlt : prev < a := List.rel_of_pairwise_cons hsorted List.mem_cons_self
    have ha : a < size := hl a (by simp)
    obtain ⟨pieces, hpieces, hconsecutive, hsum, hproper⟩ :=
      ih hsorted.of_cons fun x hx => hl x (List.mem_cons_of_mem _ hx)
    refine ⟨⟨prev, a⟩ :: pieces, ?_, ⟨rfl, ?_⟩, ?_, ?_⟩
    · simp [rangesFrom, fromEndpoints, hlt.le, hpieces]
    · rwa [show prev + Piece.size ⟨prev, a⟩ = a from Nat.add_sub_cancel' hlt.le]
    · rw [List.map_cons, List.sum_cons, hsum]
      simp only [Piece.size]
      omega
    · exact List.forall_mem_cons.2 ⟨hlt, hproper⟩

theorem mem_splitPoints {a : Nat} : a ∈ splitPoints m ↔ ∃ v ∈ splitting m, v.address = a := by
  unfold splitPoints
  rw [List.mem_insertionSort, List.mem_dedup, List.mem_map]

theorem splitPoints_pairwise (m : Module) : (splitPoints m).Pairwise (· < ·) := by
  have hsorted : (splitPoints m).Pairwise (· ≤ ·) := List.pairwise_insertionSort _ _
  have hnodup : (splitPoints m).Nodup := (List.perm_insertionSort _ _).nodup_iff.2 (List.nodup_dedup _)
  exact (hsorted.and hnodup).imp fun h => lt_of_le_of_ne h.1 h.2

theorem splitPoints_bounds {a : Nat} (ha : a ∈ splitPoints m) :
    m.data.address ≤ a ∧ a < m.data.address + m.data.size := by
  obtain ⟨v, hv, rfl⟩ := mem_splitPoints.1 ha
  exact m.data.contained v (List.mem_of_mem_filter hv)

/-- The cut of the section at its split points. Only the piece before the first of them can be
empty. -/
structure Cut (size : Nat) (pieces : List Piece) : Prop where
  consecutive : Consecutive Piece.start Piece.size 0 pieces
  sum : (pieces.map Piece.size).sum = size
  nonempty : ∀ p ∈ pieces.tail, p.start < p.stop

/-- The split points, as offsets. -/
def splitOffsets (m : Module) : List Nat := (splitPoints m).map (· - m.data.address)

theorem splitOffsets_pairwise (m : Module) : (splitOffsets m).Pairwise (· < ·) := by
  unfold splitOffsets
  rw [List.pairwise_map]
  refine List.Pairwise.imp_of_mem (fun ha hb hlt => ?_) (splitPoints_pairwise m)
  have := splitPoints_bounds ha
  omega

theorem splitOffsets_lt {a : Nat} (ha : a ∈ splitOffsets m) : a < m.data.size := by
  obtain ⟨x, hx, rfl⟩ := List.mem_map.1 ha
  have := splitPoints_bounds hx
  omega

theorem zero_mem_splitOffsets : 0 ∈ splitOffsets m ↔ ∃ v ∈ splitting m, v.address = m.data.address := by
  unfold splitOffsets
  rw [List.mem_map]
  constructor
  · rintro ⟨a, ha, hzero⟩
    have := splitPoints_bounds ha
    obtain ⟨v, hv, rfl⟩ := mem_splitPoints.1 ha
    exact ⟨v, hv, by omega⟩
  · rintro ⟨v, hv, hzero⟩
    exact ⟨v.address, mem_splitPoints.2 ⟨v, hv, rfl⟩, by omega⟩

/-- Without a split point at the start, no piece is empty. -/
theorem ranges_of_apart (hsize : 0 < m.data.size) (hstart : 0 ∉ splitOffsets m) :
    ∃ pieces, ranges m = some pieces ∧ Cut m.data.size pieces ∧ ∀ p ∈ pieces, p.start < p.stop := by
  have hpairwise : (0 :: splitOffsets m).Pairwise (· < ·) :=
    List.pairwise_cons.2 ⟨fun a ha => Nat.pos_of_ne_zero fun hzero => hstart (hzero ▸ ha), splitOffsets_pairwise m⟩
  obtain ⟨pieces, hpieces, hconsecutive, hsum, hproper⟩ :=
    rangesFrom_spec hpairwise (List.forall_mem_cons.2 ⟨hsize, fun a => splitOffsets_lt⟩)
  exact ⟨pieces, hpieces, ⟨hconsecutive, hsum, fun p hp => hproper p (List.mem_of_mem_tail hp)⟩, hproper⟩

/-- With one, an empty piece and the piece of the variable there have the same start. -/
theorem ranges_of_start (hstart : 0 ∈ splitOffsets m) :
    ∃ p pieces, ranges m = some (⟨0, 0⟩ :: p :: pieces) ∧ Cut m.data.size (⟨0, 0⟩ :: p :: pieces) ∧ p.start = 0 := by
  have hpairwise := splitOffsets_pairwise m
  have hbound : ∀ a ∈ splitOffsets m, a < m.data.size := fun a => splitOffsets_lt
  unfold ranges
  rw [← splitOffsets]
  obtain ⟨l, hl⟩ : ∃ l, splitOffsets m = 0 :: l := by
    cases hl : splitOffsets m with
    | nil =>
      rw [hl] at hstart
      cases hstart
    | cons a l =>
      rw [hl] at hpairwise hstart
      rcases List.mem_cons.1 hstart with rfl | hmem
      · exact ⟨l, rfl⟩
      · exact absurd (List.rel_of_pairwise_cons hpairwise hmem) (Nat.not_lt_zero a)
  rw [hl] at hpairwise hbound ⊢
  obtain ⟨pieces, hpieces, hconsecutive, hsum, hproper⟩ := rangesFrom_spec hpairwise hbound
  have hsize := hbound 0 List.mem_cons_self
  cases pieces with
  | nil =>
    rw [List.map_nil, List.sum_nil] at hsum
    omega
  | cons p pieces =>
    refine ⟨p, pieces, by simp [rangesFrom, fromEndpoints, hpieces], ⟨⟨rfl, hconsecutive⟩, ?_, hproper⟩,
      hconsecutive.1⟩
    rw [List.map_cons, List.sum_cons, hsum]
    exact Nat.zero_add _

theorem exists_cut (hsize : 0 < m.data.size) : ∃ pieces, ranges m = some pieces ∧ Cut m.data.size pieces := by
  by_cases hstart : 0 ∈ splitOffsets m
  · obtain ⟨p, pieces, hpieces, hcut, -⟩ := ranges_of_start hstart
    exact ⟨_, hpieces, hcut⟩
  · obtain ⟨pieces, hpieces, hcut, -⟩ := ranges_of_apart hsize hstart
    exact ⟨pieces, hpieces, hcut⟩

namespace Cut

theorem apart (h : Cut size pieces) (hp : p ∈ pieces) (hq : q ∈ pieces) (hpq : p ≠ q) :
    p.start + p.size ≤ q.start ∨ q.start + q.size ≤ p.start :=
  apart_of_consecutive h.consecutive hp hq hpq

/-- Two pieces with one start: one of them is the empty one in front. -/
theorem eq_of_start (h : Cut size pieces) (hp : p ∈ pieces) (hq : q ∈ pieces) (hpq : p ≠ q)
    (hstart : q.start = p.start) (hnonempty : 0 < p.size) : q = ⟨0, 0⟩ := by
  have hempty : q.size = 0 := by
    rcases h.apart hp hq hpq with hle | hle <;> omega
  cases pieces with
  | nil => cases hq
  | cons head tail =>
    rcases List.mem_cons.1 hq with rfl | htail
    · obtain ⟨start, stop⟩ := q
      have hzero : start = 0 := h.consecutive.1
      subst hzero
      exact congrArg (Piece.mk 0) hempty
    · have hlt := h.nonempty q htail
      unfold Piece.size at hempty
      omega

/-- Only one piece is empty. -/
theorem nonempty_of_hides (h : Cut size pieces) (hperm : (front ++ ⟨0, 0⟩ :: back).Perm pieces) :
    ∀ q ∈ front ++ back, 0 < q.size := by
  have hempty : (⟨0, 0⟩ : Piece) ∈ pieces := hperm.mem_iff.1 (by simp)
  cases pieces with
  | nil => cases hempty
  | cons head tail =>
    have htail : ⟨0, 0⟩ ∉ tail := fun hmem => Nat.lt_irrefl 0 (h.nonempty _ hmem)
    have hhead : ⟨0, 0⟩ = head := (List.mem_cons.1 hempty).resolve_right htail
    subst hhead
    have hrest : (front ++ back).Perm tail := (List.perm_middle.symm.trans hperm).cons_inv
    intro q hq
    exact Nat.sub_pos_of_lt (h.nonempty q (hrest.mem_iff.1 hq))

theorem pairwise_apart (h : Cut size pieces) (hperm : shuffle.Perm pieces) :
    shuffle.Pairwise fun p q => p.start + p.size ≤ q.start ∨ q.start + q.size ≤ p.start := by
  refine (hperm.pairwise_iff fun hpq => hpq.symm).2 ?_
  exact (pairwise_of_consecutive h.consecutive).imp .inl

theorem exists_piece (h : Cut size pieces) {o : Nat} (ho : o < size) :
    ∃ p ∈ pieces, p.start ≤ o ∧ o < p.start + p.size := by
  have hmem : o ∈ offsets Piece.start Piece.size pieces := by
    rw [offsets_of_consecutive h.consecutive, h.sum, List.mem_range'_1]
    omega
  obtain ⟨p, hp, ho⟩ := List.mem_flatMap.1 hmem
  exact ⟨p, hp, List.mem_range'_1.1 ho⟩

theorem bound (h : Cut size pieces) (hp : p ∈ pieces) : p.start + p.size ≤ size := by
  obtain ⟨front, back, rfl⟩ := List.append_of_mem hp
  have hstart : p.start = 0 + (front.map Piece.size).sum := (consecutive_append.1 h.consecutive).2.1
  have hsum := h.sum
  rw [List.map_append, List.map_cons, List.sum_append, List.sum_cons] at hsum
  omega

theorem offsets_perm (h : Cut size pieces) (hperm : shuffle.Perm pieces) :
    (offsets Piece.start Piece.size shuffle).Perm (List.range size) := by
  rw [List.range_eq_range', ← h.sum, ← offsets_of_consecutive h.consecutive]
  exact hperm.flatMap_right _

end Cut

/-! ## The layout -/

theorem foldl_place_fst (l : List Piece) (state : Nat × (Nat → Option Piece)) :
    (l.foldl place state).1 = state.1 + (l.map Piece.size).sum := by
  induction l generalizing state with
  | nil => rfl
  | cons p l ih =>
    rw [List.foldl_cons, ih, List.map_cons, List.sum_cons]
    exact Nat.add_assoc _ _ _

theorem foldl_place_of_ne {k : Nat} (l : List Piece) (hl : ∀ q ∈ l, q.start ≠ k)
    (state : Nat × (Nat → Option Piece)) : (l.foldl place state).2 k = state.2 k := by
  induction l generalizing state with
  | nil => rfl
  | cons p l ih =>
    rw [List.forall_mem_cons] at hl
    rw [List.foldl_cons, ih hl.2]
    exact Function.update_of_ne (Ne.symm hl.1) _ _

theorem place_self (state : Nat × (Nat → Option Piece)) (p : Piece) :
    (place state p).2 p.start = some ⟨state.1, state.1 + p.size⟩ :=
  Function.update_self _ _ _

/-- The last piece with a start is the one that the layout knows. -/
theorem newLayout_eq (hback : ∀ q ∈ back, q.start ≠ p.start) :
    newLayout (front ++ p :: back) p.start =
      some ⟨(front.map Piece.size).sum, (front.map Piece.size).sum + p.size⟩ := by
  unfold newLayout
  rw [List.foldl_append, List.foldl_cons, foldl_place_of_ne back hback, place_self, foldl_place_fst, Nat.zero_add]

theorem exists_last {k : Nat} (h : ∃ p ∈ shuffle, p.start = k) :
    ∃ front p back, shuffle = front ++ p :: back ∧ p.start = k ∧ ∀ q ∈ back, q.start ≠ k := by
  induction shuffle with
  | nil =>
    obtain ⟨p, hp, -⟩ := h
    cases hp
  | cons x l ih =>
    by_cases hl : ∃ p ∈ l, p.start = k
    · obtain ⟨front, p, back, rfl, hp, hback⟩ := ih hl
      exact ⟨x :: front, p, back, rfl, hp, hback⟩
    · obtain ⟨p, hp, hk⟩ := h
      push Not at hl
      rcases List.mem_cons.1 hp with rfl | hp
      · exact ⟨[], p, l, rfl, hk, hl⟩
      · exact absurd hk (hl p hp)

theorem isSome_newLayout {k : Nat} : (newLayout shuffle k).isSome ↔ ∃ p ∈ shuffle, p.start = k := by
  constructor
  · intro h
    by_contra hno
    push Not at hno
    unfold newLayout at h
    rw [foldl_place_of_ne shuffle hno] at h
    cases h
  · intro h
    obtain ⟨front, p, back, rfl, rfl, hback⟩ := exists_last h
    rw [newLayout_eq hback]
    rfl

/-- The greatest key up to an offset is the start of its piece. -/
theorem findGreatest_key (h : Cut size pieces) (hperm : shuffle.Perm pieces) {o : Nat} (hp : p ∈ pieces)
    (hle : p.start ≤ o) (hlt : o < p.start + p.size) :
    Nat.findGreatest (fun k => (newLayout shuffle k).isSome) o = p.start := by
  refine Nat.findGreatest_eq_iff.2 ⟨hle, fun _ => ?_, fun k hk hko hsome => ?_⟩
  · exact isSome_newLayout.2 ⟨p, hperm.mem_iff.2 hp, rfl⟩
  · obtain ⟨q, hq, rfl⟩ := isSome_newLayout.1 hsome
    have hne : p ≠ q := by
      rintro rfl
      exact Nat.lt_irrefl _ hk
    rcases h.apart hp (hperm.mem_iff.1 hq) hne with hapart | hapart <;> omega

/-- Where a piece is the last one with its start, its offsets go where they are written. -/
theorem newOffset_eq (h : Cut size pieces) (hperm : (front ++ p :: back).Perm pieces) {o : Nat}
    (hback : ∀ q ∈ back, q.start ≠ p.start) (hle : p.start ≤ o) (hlt : o < p.start + p.size) :
    newOffset (newLayout (front ++ p :: back)) o = some ((front.map Piece.size).sum + (o - p.start)) := by
  have hp : p ∈ pieces := hperm.mem_iff.1 (by simp)
  unfold newOffset
  dsimp only
  rw [findGreatest_key h hperm hp hle hlt, newLayout_eq hback]
  rfl

/-- Whatever the order, every offset goes somewhere, not further than two sections. -/
theorem newOffset_lt (h : Cut size pieces) (hperm : shuffle.Perm pieces) {o : Nat} (ho : o < size) :
    ∃ k, newOffset (newLayout shuffle) o = some k ∧ k < 2 * size := by
  obtain ⟨p, hp, hle, hlt⟩ := h.exists_piece ho
  obtain ⟨front, q, back, rfl, hq, hback⟩ := exists_last ⟨p, hperm.mem_iff.2 hp, rfl⟩
  have hsum := (hperm.map Piece.size).sum_eq.trans h.sum
  rw [List.map_append, List.sum_append] at hsum
  refine ⟨(front.map Piece.size).sum + (o - p.start), ?_, by omega⟩
  unfold newOffset
  dsimp only
  rw [findGreatest_key h hperm hp hle hlt, ← hq, newLayout_eq (hq ▸ hback)]
  rfl

/-- An empty piece comes behind another one with the same start. -/
def Hides (shuffle : List Piece) : Prop :=
  ∃ front back, shuffle = front ++ ⟨0, 0⟩ :: back ∧ ∃ p ∈ front, p.start = 0

theorem newOffset_inverse (h : Cut size pieces) (hperm : shuffle.Perm pieces) {o : Nat} (hp : p ∈ pieces)
    (hle : p.start ≤ o) (hlt : o < p.start + p.size) (hshown : p.start = 0 → ¬ Hides shuffle) :
    ∃ k, newOffset (newLayout shuffle) o = some k ∧ (offsets Piece.start Piece.size shuffle)[k]? = some o := by
  have hmem : p ∈ shuffle := hperm.mem_iff.2 hp
  obtain ⟨front, q, back, rfl, hq, hback⟩ := exists_last ⟨p, hmem, rfl⟩
  have hqp : q = p := by
    by_contra hne
    have hempty := h.eq_of_start hp (hperm.mem_iff.1 (by simp)) (Ne.symm hne) hq (by omega)
    subst hempty
    refine hshown hq.symm ⟨front, back, rfl, p, ?_, hq.symm⟩
    rcases List.mem_append.1 hmem with hfront | hcons
    · exact hfront
    · rcases List.mem_cons.1 hcons with heq | hmem
      · exact absurd heq.symm hne
      · exact absurd rfl (hback p hmem)
  subst hqp
  exact ⟨_, newOffset_eq h hperm hback hle hlt, getElem?_offsets hle hlt⟩

/-! ## The bytes -/

theorem foldl_copy (old : List UInt8) {l : List Piece} {state : Nat × List UInt8}
    (hroom : state.1 + (l.map Piece.size).sum ≤ state.2.length) (hl : ∀ p ∈ l, p.start + p.size ≤ old.length) :
    (l.foldl (copy old) state).2 =
      state.2.take state.1 ++ l.flatMap (fun p => (old.drop p.start).take p.size) ++
        state.2.drop (state.1 + (l.map Piece.size).sum) := by
  induction l generalizing state with
  | nil => simp
  | cons p l ih =>
    rw [List.map_cons, List.sum_cons] at hroom
    rw [List.forall_mem_cons] at hl
    have hslice : ((old.drop p.start).take p.size).length = p.size := by
      rw [List.length_take, List.length_drop]
      omega
    have htake : (state.2.take state.1).length = state.1 := by
      rw [List.length_take]
      omega
    have hlength : (copy old state p).2.length = state.2.length := by
      simp only [copy, List.length_append, List.length_drop, hslice, htake]
      omega
    have hnewend : (copy old state p).1 = state.1 + p.size := rfl
    rw [List.foldl_cons, ih (by rw [hlength, hnewend]; omega) hl.2, hnewend, List.flatMap_cons, List.map_cons,
      List.sum_cons]
    have hfront : (copy old state p).2.take (state.1 + p.size) =
        state.2.take state.1 ++ (old.drop p.start).take p.size := by
      unfold copy
      dsimp only
      rw [List.take_left' (by rw [List.length_append, hslice, htake])]
    have hrest : (copy old state p).2.drop (state.1 + p.size + (l.map Piece.size).sum) =
        state.2.drop (state.1 + (p.size + (l.map Piece.size).sum)) := by
      unfold copy
      dsimp only
      rw [← List.drop_drop, List.drop_left' (by rw [List.length_append, hslice, htake]), List.drop_drop,
        Nat.add_assoc]
    rw [hfront, hrest, List.append_assoc (state.2.take state.1)]

theorem slice_eq_map {old : List UInt8} {start len : Nat} (h : start + len ≤ old.length) :
    (old.drop start).take len = (List.range' start len).map fun o => old[o]?.getD 0 := by
  apply List.ext_getElem?
  intro k
  rw [List.getElem?_map, List.getElem?_take]
  split
  case isTrue hk =>
    have hlt : start + k < old.length := by omega
    rw [List.getElem?_drop, List.getElem?_range' hk, List.getElem?_eq_getElem hlt]
    simp [List.getElem?_eq_getElem hlt]
  case isFalse hk => rw [List.getElem?_eq_none (by rw [List.length_range']; omega), Option.map_none]

/-- The new bytes are the old ones, read in the new order of their offsets. -/
theorem newData_eq (s : DataSection) (h : Cut s.size pieces) (hperm : shuffle.Perm pieces) :
    newData s shuffle =
      (offsets Piece.start Piece.size shuffle).map fun o => s.bytes[s.originalOffset + o]?.getD 0 := by
  have hsum : (shuffle.map Piece.size).sum = s.size := by rw [(hperm.map _).sum_eq, h.sum]
  have hold : (s.bytes.drop s.originalOffset).length = s.bytes.length - s.originalOffset := List.length_drop
  have hbounds : ∀ p ∈ shuffle, p.start + p.size ≤ (s.bytes.drop s.originalOffset).length := fun p hp => by
    have hbound := h.bound (hperm.mem_iff.1 hp)
    have hinitialized := s.initialized
    omega
  have hrest : (List.replicate s.size (0 : UInt8)).drop s.size = [] := List.drop_eq_nil_of_le (by simp)
  unfold newData
  rw [foldl_copy _ (by simp [hsum]) hbounds, hsum, List.take_zero, List.nil_append, Nat.zero_add, hrest,
    List.append_nil]
  unfold offsets
  rw [List.map_flatMap]
  refine List.flatMap_congr fun p hp => ?_
  rw [slice_eq_map (hbounds p hp)]
  simp only [List.getElem?_drop]

/-! ## The permutation -/

theorem exact_of_not_hides (s : DataSection) (h : Cut s.size pieces) (hperm : shuffle.Perm pieces)
    (hshown : ¬ Hides shuffle) : Exact s ⟨newLayout shuffle, newData s shuffle⟩ := by
  have hinverse : ∀ o < s.size, ∃ k, newOffset (newLayout shuffle) o = some k ∧
      (offsets Piece.start Piece.size shuffle)[k]? = some o := fun o ho => by
    obtain ⟨p, hp, hle, hlt⟩ := h.exists_piece ho
    exact newOffset_inverse h hperm hp hle hlt fun _ => hshown
  choose! f hf using hinverse
  refine ⟨f, fun o ho => (hf o ho).1, bijOn_of_getElem? (h.offsets_perm hperm) fun o ho => (hf o ho).2, ?_, ?_⟩
  · rw [newData_eq s h hperm, List.length_map, (h.offsets_perm hperm).length_eq, List.length_range]
  · intro o ho
    have hinitialized := s.initialized
    have hlt : s.originalOffset + o < s.bytes.length := by omega
    dsimp only
    rw [newData_eq s h hperm, List.getElem?_map, (hf o ho).2, Option.map_some, List.getElem?_eq_getElem hlt]
    rfl

/-- Behind the first piece, the empty piece is the one that the layout knows. -/
theorem newOffset_hidden (h : Cut size pieces) (hperm : (front ++ ⟨0, 0⟩ :: back).Perm pieces) (hp : p ∈ front)
    (hstart : p.start = 0) {o : Nat} (ho : o < p.size) :
    newOffset (newLayout (front ++ ⟨0, 0⟩ :: back)) o = some ((front.map Piece.size).sum + o) := by
  have hpmem : p ∈ pieces := hperm.mem_iff.1 (List.mem_append_left _ hp)
  have hback : ∀ q ∈ back, q.start ≠ 0 := fun q hq hq0 => by
    have hqsize := h.nonempty_of_hides hperm q (List.mem_append_right _ hq)
    have hapart := (List.pairwise_append.1 (h.pairwise_apart hperm)).2.2 p hp q (List.mem_cons_of_mem _ hq)
    omega
  have hkey : Nat.findGreatest (fun k => (newLayout (front ++ ⟨0, 0⟩ :: back) k).isSome) o = 0 :=
    (findGreatest_key h hperm hpmem (by omega) (by omega)).trans hstart
  have hlayout : newLayout (front ++ ⟨0, 0⟩ :: back) 0 =
      some ⟨(front.map Piece.size).sum, (front.map Piece.size).sum + 0⟩ := newLayout_eq hback
  unfold newOffset
  dsimp only
  rw [hkey, hlayout]
  rfl

/-- Behind the first piece, the empty piece takes its place in the layout: nothing goes to where
the first piece is written. -/
theorem not_exact_of_hides (s : DataSection) (h : Cut s.size pieces) (hperm : shuffle.Perm pieces)
    (hhides : Hides shuffle) : ¬ Exact s ⟨newLayout shuffle, newData s shuffle⟩ := by
  obtain ⟨front, back, rfl, p, hp, hstart⟩ := hhides
  rintro ⟨f, hf, hbij, -⟩
  have hpmem : p ∈ pieces := hperm.mem_iff.1 (List.mem_append_left _ hp)
  have hpsize : 0 < p.size := h.nonempty_of_hides hperm p (List.mem_append_left _ hp)
  have hoffset : ∀ o < p.size, newOffset (newLayout (front ++ ⟨0, 0⟩ :: back)) o =
      some ((front.map Piece.size).sum + o) := fun o => newOffset_hidden h hperm hp hstart
  -- The first piece is written at `t`, but its offsets go behind its end.
  obtain ⟨first, second, rfl⟩ := List.append_of_mem hp
  obtain ⟨t, ht⟩ : ∃ t, t = (first.map Piece.size).sum := ⟨_, rfl⟩
  have hget : (offsets Piece.start Piece.size (first ++ p :: second ++ ⟨0, 0⟩ :: back))[t]? = some 0 := by
    have hget : (offsets Piece.start Piece.size (first ++ p :: (second ++ ⟨0, 0⟩ :: back)))[
        (first.map Piece.size).sum + (0 - p.start)]? = some 0 := getElem?_offsets (by omega) (by omega)
    simpa [ht] using hget
  have htlt : t < s.size := by
    have hlt := (List.getElem?_eq_some_iff.1 hget).1
    rwa [(h.offsets_perm hperm).length_eq, List.length_range] at hlt
  obtain ⟨o, ho, hfo⟩ := hbij.surjOn htlt
  by_cases hop : o < p.size
  · have hfo' : f o = ((first ++ p :: second).map Piece.size).sum + o :=
      Option.some.inj ((hf o ho).symm.trans (hoffset o hop))
    rw [List.map_append, List.map_cons, List.sum_append, List.sum_cons] at hfo'
    omega
  · obtain ⟨q, hq, hle, hlt⟩ := h.exists_piece (show o < s.size from ho)
    obtain ⟨k, hk, hko⟩ := newOffset_inverse h hperm hq hle hlt fun hq0 => by
      have hne : p ≠ q := by
        rintro rfl
        omega
      have hapart := h.apart hpmem hq hne
      omega
    have hok : f o = k := Option.some.inj ((hf o ho).symm.trans hk)
    rw [← hok, hfo, hget] at hko
    cases hko
    exact hop hpsize

theorem mem_of_lastVariable {last : GlobalVariable} (h : lastVariable m = some last) : last ∈ splitting m := by
  have hfold : ∀ (l : List GlobalVariable) (start : Option GlobalVariable),
      l.foldl (fun last v => if (last.elim 0 (·.address)) < v.address then some v else last) start = some last →
        last ∈ l ∨ start = some last := fun l => by
    induction l with
    | nil => exact fun start hstart => .inr hstart
    | cons v l ih =>
      intro start hstart
      rcases ih _ hstart with hmem | hlast
      · exact .inl (List.mem_cons_of_mem _ hmem)
      · dsimp only at hlast
        split at hlast
        · cases hlast
          exact .inl List.mem_cons_self
        · exact .inr hlast
  exact (hfold _ _ h).resolve_right nofun

theorem permute_eq {last : GlobalVariable} (hlast : lastVariable m = some last) (shuffle : Shuffle) :
    ∃ pieces, ranges m = some pieces ∧ Cut m.data.size pieces ∧
      permute m shuffle = some ⟨newLayout (shuffle.apply pieces), newData m.data (shuffle.apply pieces)⟩ := by
  have hcontained := m.data.contained last (List.mem_of_mem_filter (mem_of_lastVariable hlast))
  obtain ⟨pieces, hpieces, hcut⟩ := exists_cut (show 0 < m.data.size by omega)
  refine ⟨pieces, hpieces, hcut, ?_⟩
  unfold permute
  rw [hlast, hpieces]
  rfl

/-- The shuffle leaves the empty piece at the start of the section behind the piece of the variable there. -/
def HidesFirst (m : Module) (shuffle : Shuffle) : Prop :=
  ∃ pieces, ranges m = some pieces ∧ Hides (shuffle.apply pieces)

/-- Where the pass permutes at all, it ends, and the new section is exact. -/
def Permutes (m : Module) (shuffle : Shuffle) : Prop :=
  ∀ last, lastVariable m = some last → ∃ result, permute m shuffle = some result ∧ Exact m.data result

theorem permutes_iff {last : GlobalVariable} (hlast : lastVariable m = some last) (shuffle : Shuffle) :
    Permutes m shuffle ↔ ¬ HidesFirst m shuffle := by
  obtain ⟨pieces, hpieces, hcut, hpermute⟩ := permute_eq hlast shuffle
  have hhides : HidesFirst m shuffle ↔ Hides (shuffle.apply pieces) := by
    unfold HidesFirst
    rw [hpieces]
    simp
  unfold Permutes
  rw [hhides, hpermute]
  constructor
  · intro hexact hhides
    obtain ⟨result, hresult, hexact⟩ := hexact last hlast
    cases hresult
    exact not_exact_of_hides m.data hcut (shuffle.perm pieces) hhides hexact
  · intro hshown _ _
    exact ⟨_, rfl, exact_of_not_hides m.data hcut (shuffle.perm pieces) hshown⟩

/-- Some shuffle hides the first variable exactly if it lies at the start of the section. -/
theorem exists_hidesFirst_iff {last : GlobalVariable} (hlast : lastVariable m = some last) :
    (∃ shuffle, HidesFirst m shuffle) ↔ ∃ v ∈ splitting m, v.address = m.data.address := by
  constructor
  · rintro ⟨shuffle, pieces, hpieces, front, back, hshuffle, -⟩
    by_contra hnone
    have hcontained := m.data.contained last (List.mem_of_mem_filter (mem_of_lastVariable hlast))
    obtain ⟨pieces', hpieces', -, hproper⟩ :=
      ranges_of_apart (show 0 < m.data.size by omega) (mt zero_mem_splitOffsets.1 hnone)
    rw [hpieces] at hpieces'
    cases hpieces'
    have hempty : (⟨0, 0⟩ : Piece) ∈ pieces := (shuffle.perm pieces).mem_iff.1 (by rw [hshuffle]; simp)
    exact Nat.lt_irrefl 0 (hproper _ hempty)
  · -- The reversed order has the empty piece last.
    intro hstart
    obtain ⟨p, pieces, hpieces, -, hp⟩ := ranges_of_start (zero_mem_splitOffsets.2 hstart)
    refine ⟨⟨List.reverse, List.reverse_perm⟩, _, hpieces, (p :: pieces).reverse, [], ?_, p, ?_, hp⟩
    · exact List.reverse_cons
    · exact List.mem_reverse.2 List.mem_cons_self

/-- The new section is a permutation of the old one along `newOffset` exactly if the shuffle does
not hide the first variable; under every shuffle, exactly if no piece starts with the section. -/
theorem permutes_exactly_iff (m : Module) :
    (∀ shuffle, Permutes m shuffle ↔ lastVariable m = none ∨ ¬ HidesFirst m shuffle) ∧
    ((∀ shuffle, Permutes m shuffle) ↔
      lastVariable m = none ∨ ∀ v ∈ splitting m, v.address ≠ m.data.address) := by
  cases hlast : lastVariable m with
  | none =>
    have hpermutes : ∀ shuffle, Permutes m shuffle := fun shuffle last h => by
      rw [hlast] at h
      cases h
    exact ⟨fun shuffle => ⟨fun _ => .inl rfl, fun _ => hpermutes shuffle⟩, fun _ => .inl rfl, fun _ => hpermutes⟩
  | some last =>
    have hexists := exists_hidesFirst_iff hlast
    refine ⟨fun shuffle => ?_, ?_⟩
    · rw [permutes_iff hlast]
      simp
    · simp only [permutes_iff hlast, reduceCtorEq, false_or]
      rw [← not_exists, hexists]
      push Not
      rfl

/-- Two bytes, each a variable. -/
def twoBytes : Module where
  data := ⟨16, 2, 0, [1, 2], [⟨0, 16, 1⟩, ⟨1, 17, 1⟩], by decide, by decide⟩
  globals := [⟨0, 16, 1⟩, ⟨1, 17, 1⟩]
  functions := []

/-- The first byte is written to 1, but `newOffset` gives 2. -/
theorem twoBytes_hidden : ¬ Permutes twoBytes ⟨List.reverse, List.reverse_perm⟩ := by
  intro hpermutes
  have hlast : lastVariable twoBytes = some ⟨1, 17, 1⟩ := by decide
  have hranges : ranges twoBytes = some [⟨0, 0⟩, ⟨0, 1⟩, ⟨1, 2⟩] := by decide
  exact (permutes_iff hlast _).1 hpermutes ⟨_, hranges, [⟨1, 2⟩, ⟨0, 1⟩], [], rfl, ⟨0, 1⟩, by decide, rfl⟩

end Egalito.Pass.PermuteData
