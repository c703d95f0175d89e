import Mathlib.Data.List.AList
import Egalito.Lib.Run
/-!
# The GS table

`chunk/gstable.cpp`: the jump slots of the JIT-shuffling runtime. Entries get
their index when they are made, 32 bits wide; the entries that are made before
`finishReservation` are reserved. A failed assertion stops the program.
-/

open Egalito.Lib

namespace Egalito.Chunk

variable {χ : Type}

/-- `otherTarget` is not used by the table. -/
structure GSTableEntry (χ : Type) where
  target : χ
  index : UInt32
  deriving DecidableEq, Repr

def entrySize : UInt32 := 8

def GSTableEntry.getOffset (e : GSTableEntry χ) : UInt32 := e.index * entrySize

structure GSTable (χ : Type) where
  children : List (GSTableEntry χ)
  entryMap : AList fun _ : χ => GSTableEntry χ
  reserved : UInt64

namespace GSTable

def new : GSTable χ := ⟨[], ∅, 0⟩

def nextIndex (t : GSTable χ) : UInt32 := UInt32.ofNat t.entryMap.entries.length

def reserving (t : GSTable χ) : Bool := t.reserved == 0

def finishReservation (t : GSTable χ) : Option (GSTable χ) :=
  if t.reserving then some { t with reserved := t.nextIndex.toUInt64 } else none

def getJITStartIndex (t : GSTable χ) : UInt32 := t.reserved.toUInt32

variable [DecidableEq χ]

def getEntryFor (t : GSTable χ) (target : χ) : Option (GSTableEntry χ) := t.entryMap.lookup target

def makeEntryFor (t : GSTable χ) (target : χ) : GSTableEntry χ × GSTable χ :=
  match t.getEntryFor target with
  | some entry => (entry, t)
  | none =>
    let entry := ⟨target, t.nextIndex⟩
    (entry, { t with children := t.children ++ [entry], entryMap := t.entryMap.insert target entry })

def makeReservedEntryFor (t : GSTable χ) (target : χ) : Option (GSTableEntry χ × GSTable χ) :=
  if t.reserving then some (t.makeEntryFor target) else none

def makeJITEntryFor (t : GSTable χ) (target : χ) : GSTableEntry χ × GSTable χ := t.makeEntryFor target

def offsetToIndex (offset : UInt32) : UInt32 := offset / entrySize

def getAtIndex (t : GSTable χ) (index : UInt32) : Option (GSTableEntry χ) :=
  if index.toNat ≥ t.children.length then none else t.children[index.toNat]?

/-! ## Runs -/

inductive Op (χ : Type)
  | makeReservedEntryFor (target : χ)
  | makeJITEntryFor (target : χ)
  | getEntryFor (target : χ)
  | getAtIndex (index : UInt32)
  | offsetToIndex (offset : UInt32)
  | finishReservation

/-- The table after a call. -/
def step (t : GSTable χ) : Op χ → Option (GSTable χ)
  | .makeReservedEntryFor target => (t.makeReservedEntryFor target).map Prod.snd
  | .makeJITEntryFor target => some (t.makeJITEntryFor target).2
  | .getEntryFor _ | .getAtIndex _ | .offsetToIndex _ => some t
  | .finishReservation => t.finishReservation

/-- What holds of the entries in a state. -/
structure Consistent (t : GSTable χ) : Prop where
  position : ∀ i (e : GSTableEntry χ), t.children[i]? = some e → e.index.toNat = i
  unique : (t.children.map GSTableEntry.target).Nodup
  found : ∀ target e, t.getEntryFor target = some e ↔ e ∈ t.children ∧ e.target = target
  offset : ∀ e ∈ t.children, t.getAtIndex (offsetToIndex e.getOffset) = some e

/-- What holds in a state `t` behind a call of `finishReservation` in the state `t₀`. -/
structure Reserved (t₀ t : GSTable χ) : Prop where
  phase : t.reserving = false
  below : ∀ e ∈ t₀.children, e.index < t.getJITStartIndex
  above : ∀ e ∈ t.children, e ∉ t₀.children → t.getJITStartIndex ≤ e.index

/-- In every state of a run, and behind every `finishReservation`. -/
structure Sound (ops : List (Op χ)) : Prop where
  consistent : ∀ front back t, ops = front ++ back → front.foldlM step new = some t → t.Consistent
  reserved : ∀ front middle back t₀ t, ops = front ++ .finishReservation :: (middle ++ back) →
    front.foldlM step new = some t₀ → (front ++ .finishReservation :: middle).foldlM step new = some t → Reserved t₀ t

/-- Before a call that passes its assertion: a reservation has an entry, and a new entry finds
fewer than 2^29. -/
def Bounded (t : GSTable χ) : Op χ → Prop
  | .makeReservedEntryFor target =>
    t.reserving = true → t.getEntryFor target = none → t.children.length < 2 ^ 29
  | .makeJITEntryFor target => t.getEntryFor target = none → t.children.length < 2 ^ 29
  | .finishReservation => t.reserving = true → t.children ≠ []
  | _ => True

/-! ## One call -/

variable {t t' : GSTable χ} {op : Op χ}

/-- The table with a new entry. -/
def add (t : GSTable χ) (target : χ) : GSTable χ :=
  { t with children := t.children ++ [⟨target, t.nextIndex⟩]
           entryMap := t.entryMap.insert target ⟨target, t.nextIndex⟩ }

theorem makeEntryFor_cases (t : GSTable χ) (target : χ) :
    (t.makeEntryFor target).2 = t ∨ t.getEntryFor target = none ∧ (t.makeEntryFor target).2 = t.add target := by
  unfold makeEntryFor
  cases h : t.getEntryFor target with
  | some e => exact .inl rfl
  | none => exact .inr ⟨rfl, rfl⟩

/-- The entry that a call makes or finds is in the table from then on. -/
theorem getEntryFor_makeEntryFor (t : GSTable χ) (target : χ) :
    (t.makeEntryFor target).2.getEntryFor target = some (t.makeEntryFor target).1 := by
  unfold makeEntryFor
  cases h : t.getEntryFor target with
  | some e => exact h
  | none => exact AList.lookup_insert t.entryMap

theorem getEntryFor_of_makeEntryFor {target x : χ} {e : GSTableEntry χ} (h : t.getEntryFor x = some e) :
    (t.makeEntryFor target).2.getEntryFor x = some e := by
  rcases makeEntryFor_cases t target with heq | ⟨hnone, heq⟩
  · rw [heq, h]
  · have hne : x ≠ target := by
      rintro rfl
      rw [hnone] at h
      cases h
    rw [heq]
    exact (AList.lookup_insert_ne hne).trans h

/-- What a call can do. -/
theorem step_cases (h : t.step op = some t') :
    t' = t ∨
    (∃ target, (op = .makeReservedEntryFor target ∨ op = .makeJITEntryFor target) ∧ t.getEntryFor target = none ∧
      t' = t.add target) ∨
    (op = .finishReservation ∧ t.reserving = true ∧ t' = { t with reserved := t.nextIndex.toUInt64 }) := by
  cases op with
  | makeReservedEntryFor target =>
    simp only [step, makeReservedEntryFor] at h
    split at h
    · cases h
      rcases makeEntryFor_cases t target with heq | ⟨hnone, heq⟩
      · exact .inl heq
      · exact .inr (.inl ⟨target, .inl rfl, hnone, heq⟩)
    · cases h
  | makeJITEntryFor target =>
    cases h
    rcases makeEntryFor_cases t target with heq | ⟨hnone, heq⟩
    · exact .inl heq
    · exact .inr (.inl ⟨target, .inr rfl, hnone, heq⟩)
  | finishReservation =>
    simp only [step, finishReservation] at h
    split at h
    case isTrue hres =>
      cases h
      exact .inr (.inr ⟨rfl, hres, rfl⟩)
    case isFalse => cases h
  | _ =>
    cases h
    exact .inl rfl

/-- The map and the indices follow the list, whatever was called. -/
structure Mirrors (t : GSTable χ) : Prop where
  entries : t.entryMap.entries = (t.children.map fun e => (⟨e.target, e⟩ : Sigma fun _ : χ => GSTableEntry χ)).reverse
  index : ∀ i e, t.children[i]? = some e → e.index = UInt32.ofNat i

omit [DecidableEq χ] in
theorem Mirrors.nextIndex (h : t.Mirrors) : t.nextIndex = UInt32.ofNat t.children.length := by
  unfold GSTable.nextIndex
  rw [h.entries, List.length_reverse, List.length_map]

omit [DecidableEq χ] in
theorem mirrors_new : (new : GSTable χ).Mirrors := ⟨rfl, fun i e h => by simp [new] at h⟩

theorem Mirrors.add (h : t.Mirrors) {target : χ} (hnone : t.getEntryFor target = none) : (t.add target).Mirrors := by
  refine ⟨?_, fun i e he => ?_⟩
  · have hfresh : target ∉ t.entryMap := AList.lookup_eq_none.1 hnone
    change (t.entryMap.insert target _).entries = ((t.children ++ [_]).map _).reverse
    rw [AList.entries_insert_of_notMem hfresh, h.entries, List.map_append, List.reverse_append]
    rfl
  · change (t.children ++ [_])[i]? = some e at he
    rw [List.getElem?_append] at he
    split at he
    · exact h.index i e he
    · rw [List.getElem?_singleton] at he
      split at he
      case isTrue hi hlast =>
        cases he
        rw [h.nextIndex, show i = t.children.length by omega]
      case isFalse => cases he

theorem mirrors_step (h : t.Mirrors) (hstep : t.step op = some t') : t'.Mirrors := by
  rcases step_cases hstep with rfl | ⟨target, -, hnone, rfl⟩ | ⟨-, -, rfl⟩
  · exact h
  · exact h.add hnone
  · exact ⟨h.entries, h.index⟩

theorem mirrors_run {ops : List (Op χ)} (h : t.Mirrors) (hrun : ops.foldlM step t = some t') : t'.Mirrors :=
  foldlM_invariant (P := fun _ _ => True) Mirrors (fun _ _ _ h _ hstep => mirrors_step h hstep) h
    (along_of_forall (fun _ _ => trivial) _ _) hrun

/-! ## The entries of a state -/

omit [DecidableEq χ] in
theorem Mirrors.index_toNat (h : t.Mirrors) (hlength : t.children.length ≤ 2 ^ 29) {i : Nat} {e : GSTableEntry χ}
    (he : t.children[i]? = some e) : e.index.toNat = i := by
  have hi := (List.getElem?_eq_some_iff.1 he).1
  rw [h.index i e he, UInt32.toNat_ofNat_of_lt' (by simp only [UInt32.size]; omega)]

omit [DecidableEq χ] in
theorem getAtIndex_eq (t : GSTable χ) (index : UInt32) : t.getAtIndex index = t.children[index.toNat]? := by
  unfold getAtIndex
  split
  case isTrue hle => rw [List.getElem?_eq_none hle]
  case isFalse => rfl

omit [DecidableEq χ] in
theorem offsetToIndex_getOffset (e : GSTableEntry χ) :
    (offsetToIndex e.getOffset).toNat = e.index.toNat * 8 % 2 ^ 32 / 8 := by
  unfold offsetToIndex GSTableEntry.getOffset
  rw [UInt32.toNat_div, UInt32.toNat_mul]
  rfl

omit [DecidableEq χ] in
theorem Mirrors.nodup_targets (h : t.Mirrors) : (t.children.map GSTableEntry.target).Nodup := by
  have hkeys := t.entryMap.nodupKeys
  unfold List.NodupKeys List.keys at hkeys
  rw [h.entries, List.map_reverse, List.map_map, List.nodup_reverse] at hkeys
  exact hkeys

theorem Mirrors.getEntryFor_eq_none (h : t.Mirrors) {target : χ} :
    t.getEntryFor target = none ↔ target ∉ t.children.map GSTableEntry.target := by
  have hkeys : t.entryMap.entries.keys = (t.children.map GSTableEntry.target).reverse := by
    rw [h.entries, List.keys, List.map_reverse, List.map_map]
    rfl
  rw [getEntryFor, AList.lookup_eq_none, ← List.mem_reverse, ← hkeys]
  rfl

theorem Mirrors.consistent (h : t.Mirrors) (hlength : t.children.length ≤ 2 ^ 29) : t.Consistent := by
  refine ⟨fun i e => h.index_toNat hlength, h.nodup_targets, fun target e => ?_, fun e he => ?_⟩
  · rw [getEntryFor, ← Option.mem_def, AList.mem_lookup_iff, h.entries, List.mem_reverse, List.mem_map]
    constructor
    · rintro ⟨e', he', heq⟩
      cases heq
      exact ⟨he', rfl⟩
    · rintro ⟨he, rfl⟩
      exact ⟨e, he, rfl⟩
  · obtain ⟨i, he⟩ := List.getElem?_of_mem he
    have hi := (List.getElem?_eq_some_iff.1 he).1
    rw [getAtIndex_eq, offsetToIndex_getOffset, h.index_toNat hlength he, Nat.mod_eq_of_lt (by omega),
      Nat.mul_div_cancel _ (by decide), he]

/-- The offset of entry 2^29 wraps to that of the first. -/
theorem Consistent.length_le (h : t.Consistent) : t.children.length ≤ 2 ^ 29 := by
  by_contra hlt
  have hi : 2 ^ 29 < t.children.length := Nat.lt_of_not_le hlt
  have he := List.getElem?_eq_getElem hi
  have hindex := h.position _ _ he
  have hoffset := h.offset _ (List.getElem_mem hi)
  rw [getAtIndex_eq, offsetToIndex_getOffset, hindex] at hoffset
  exact absurd (hindex.symm.trans (h.position _ _ hoffset)) (by decide)

/-! ## The run -/

theorem length_step (hbound : t.Bounded op) (hlength : t.children.length ≤ 2 ^ 29) (hstep : t.step op = some t') :
    t'.children.length ≤ 2 ^ 29 := by
  rcases step_cases hstep with rfl | ⟨target, hop, hnone, rfl⟩ | ⟨-, -, rfl⟩
  · exact hlength
  · have hlt : t.children.length < 2 ^ 29 := by
      rcases hop with rfl | rfl
      · refine hbound ?_ hnone
        by_contra hres
        simp [step, makeReservedEntryFor, hres] at hstep
      · exact hbound hnone
    simpa [add] using hlt
  · exact hlength

/-- After the reservation the list only grows and the count stays. -/
def Extends (t₀ : GSTable χ) (reserved : UInt64) (t : GSTable χ) : Prop :=
  t.reserved = reserved ∧ ∃ new, t.children = t₀.children ++ new

theorem extends_step {t₀ : GSTable χ} {reserved : UInt64} (hreserved : reserved ≠ 0) (h : Extends t₀ reserved t)
    (hstep : t.step op = some t') : Extends t₀ reserved t' := by
  rcases step_cases hstep with rfl | ⟨target, -, -, rfl⟩ | ⟨-, hres, rfl⟩
  · exact h
  · obtain ⟨heq, new, hnew⟩ := h
    refine ⟨heq, new ++ [⟨target, t.nextIndex⟩], ?_⟩
    rw [← List.append_assoc, ← hnew]
    rfl
  · rw [reserving, h.1, beq_iff_eq] at hres
    exact absurd hres hreserved

theorem run_invariant {ops : List (Op χ)} (hrun : ops.foldlM step new = some t)
    (hbound : Along step Bounded new ops) : t.Mirrors ∧ t.children.length ≤ 2 ^ 29 :=
  foldlM_invariant (fun t => t.Mirrors ∧ t.children.length ≤ 2 ^ 29)
    (fun _ _ _ h hbound hstep => ⟨mirrors_step h.1 hstep, length_step hbound h.2 hstep⟩)
    ⟨mirrors_new, Nat.zero_le _⟩ hbound hrun

omit [DecidableEq χ] in
theorem toNat_nextIndex (h : t.Mirrors) (hlength : t.children.length ≤ 2 ^ 29) :
    t.nextIndex.toUInt64.toNat = t.children.length := by
  rw [UInt32.toNat_toUInt64, h.nextIndex, UInt32.toNat_ofNat_of_lt' (by simp only [UInt32.size]; omega)]

omit [DecidableEq χ] in
theorem reserved_of_extends {t₀ : GSTable χ} (h₀ : t₀.Mirrors) (hlength₀ : t₀.children.length ≤ 2 ^ 29)
    (hne : t₀.children ≠ []) (hrun : ∀ reserved, reserved ≠ 0 → reserved = t₀.nextIndex.toUInt64 → Extends t₀ reserved t)
    (h : t.Mirrors) (hlength : t.children.length ≤ 2 ^ 29) : Reserved t₀ t := by
  have hcount := toNat_nextIndex h₀ hlength₀
  have hpos := List.length_pos_of_ne_nil hne
  have hreserved : t₀.nextIndex.toUInt64 ≠ 0 := fun h0 => by
    rw [h0] at hcount
    exact absurd hcount (Nat.ne_of_lt hpos)
  obtain ⟨heq, new, hnew⟩ := hrun _ hreserved rfl
  have hstart : t.getJITStartIndex.toNat = t₀.children.length := by
    rw [getJITStartIndex, heq, UInt64.toNat_toUInt32, hcount, Nat.mod_eq_of_lt (by omega)]
  refine ⟨?_, fun e he => ?_, fun e he hnot => ?_⟩
  · rw [reserving, heq, beq_eq_false_iff_ne]
    exact hreserved
  · obtain ⟨i, he⟩ := List.getElem?_of_mem he
    rw [UInt32.lt_iff_toNat_lt, hstart, h₀.index_toNat hlength₀ he]
    exact (List.getElem?_eq_some_iff.1 he).1
  · obtain ⟨i, he⟩ := List.getElem?_of_mem he
    rw [UInt32.le_iff_toNat_le, hstart, h.index_toNat hlength he]
    by_contra hlt
    rw [hnew, List.getElem?_append_left (Nat.lt_of_not_le hlt)] at he
    exact hnot (List.mem_of_getElem? he)

theorem sound_of_bounded {ops : List (Op χ)} (h : Along step Bounded (new : GSTable χ) ops) : Sound ops := by
  refine ⟨fun front back t hops hrun => ?_, fun front middle back t₀ t hops hfront hrun => ?_⟩
  · rw [hops, along_append] at h
    obtain ⟨hmirrors, hlength⟩ := run_invariant hrun h.1
    exact hmirrors.consistent hlength
  · have hall : ops = (front ++ .finishReservation :: middle) ++ back := by
      rw [hops, List.append_assoc]
      rfl
    rw [hall, along_append] at h
    obtain ⟨hmirrors, hlength⟩ := run_invariant hrun h.1
    have hfinish := along_append.1 h.1
    obtain ⟨hmirrors₀, hlength₀⟩ := run_invariant hfront hfinish.1
    rw [List.foldlM_append, hfront, Option.bind_eq_bind, Option.bind_some, List.foldlM_cons, Option.bind_eq_bind,
      Option.bind_eq_some_iff] at hrun
    obtain ⟨t₁, hstep, hrun⟩ := hrun
    have hres : t₀.reserving = true := by
      by_contra hres
      simp [step, finishReservation, hres] at hstep
    have ht₁ : t₁ = { t₀ with reserved := t₀.nextIndex.toUInt64 } := by
      simp only [step, finishReservation, if_pos hres, Option.some.injEq] at hstep
      exact hstep.symm
    refine reserved_of_extends hmirrors₀ hlength₀ ((hfinish.2 t₀ hfront).1 hres) (fun reserved hne heq => ?_)
      hmirrors hlength
    refine foldlM_invariant (P := fun _ _ => True) (Extends t₀ reserved)
      (fun _ _ _ h _ hstep => extends_step hne h hstep) ?_ (along_of_forall (fun _ _ => trivial) _ _) hrun
    rw [ht₁]
    exact ⟨heq.symm, [], (List.append_nil _).symm⟩

/-- A state in which the promise holds has seen only bounded calls. -/
theorem bounded_of_sound {ops back : List (Op χ)} (h : Sound ops) (front : List (Op χ)) (hops : ops = front ++ back)
    (hrun : front.foldlM step new = some t) : Along step Bounded t back := by
  induction back generalizing front t with
  | nil => trivial
  | cons op back ih =>
    have hops' : ops = (front ++ [op]) ++ back := by rw [hops, List.append_assoc]; rfl
    have hrun' : ∀ t', t.step op = some t' → (front ++ [op]).foldlM step new = some t' := fun t' hstep => by
      rw [List.foldlM_append, hrun]
      simp [hstep]
    have hroom : ∀ target, t.step op = some (t.add target) → t.children.length < 2 ^ 29 := fun target hstep => by
      have hle := (h.consistent _ back _ hops' (hrun' _ hstep)).length_le
      simpa [add] using hle
    refine ⟨?_, fun t' hstep => ih _ hops' (hrun' t' hstep)⟩
    cases op with
    | makeReservedEntryFor target =>
      intro hres hnone
      exact hroom target (by simp [step, makeReservedEntryFor, hres, makeEntryFor, hnone, add])
    | makeJITEntryFor target =>
      intro hnone
      exact hroom target (by simp [step, makeJITEntryFor, makeEntryFor, hnone, add])
    | finishReservation =>
      intro hres hnil
      have hstep : t.step .finishReservation = some { t with reserved := t.nextIndex.toUInt64 } := by
        simp [step, finishReservation, hres]
      have hphase := (h.reserved front [] back t _ hops hrun (hrun' _ hstep)).phase
      have hmirrors := mirrors_run mirrors_new hrun
      rw [reserving, beq_eq_false_iff_ne] at hphase
      refine hphase ?_
      change t.nextIndex.toUInt64 = 0
      rw [hmirrors.nextIndex, hnil]
      rfl
    | _ => trivial

/-- The table keeps its promises in a run exactly if no reservation ends without an entry and
no entry is made beside 2^29 others. -/
theorem gsTable_sound_iff (ops : List (Op χ)) : Sound ops ↔ Along step Bounded (new : GSTable χ) ops :=
  ⟨fun h => bounded_of_sound h [] rfl rfl, sound_of_bounded⟩

/-- The first call of all. -/
theorem emptyReservation_unsound : ¬ Sound ([.finishReservation] : List (Op Nat)) := by
  intro h
  have hphase := (h.reserved [] [] [] new ⟨[], ∅, 0⟩ rfl rfl rfl).phase
  cases hphase

end GSTable

end Egalito.Chunk
