import Egalito.Lib.Align
import Egalito.Lib.Image
/-!
# The area for thread-local storage

`allocateTLSArea` and `loadTLSDataFor` of `conductor/conductor.cpp` on x86-64.
The first one lays out the regions of the modules for the main thread, the
second one loads them for each further thread. Addresses and sizes have 64 bits.
-/

open Egalito.Lib

namespace Egalito.Conductor.TLSArea

/-- A `TLSDataRegion`; the data is followed by zeros. -/
structure Region where
  size : Nat
  dataBytes : List UInt8
  fits : dataBytes.length ≤ size
  bounded : size < 2 ^ 64

/-- What `loadRegionTo` writes. -/
def Region.image (r : Region) : List UInt8 := r.dataBytes ++ List.replicate (r.size - r.dataBytes.length) 0

/-- For each module its region, if it has one; the executable is one of the modules. -/
structure Program where
  modules : List (Option Region)
  main : Option Nat

/-- The modules that have a region, in their order. -/
def Program.regions (p : Program) : List (Nat × Region) :=
  p.modules.zipIdx.filterMap fun x => x.1.map fun tls => (x.2, tls)

/-- The `base` of `fixDataSections`. -/
def base : Nat := 0x20000000

def sizeofEgalitoTLS : Nat := 80

structure Area where
  mainThreadPointer : Nat
  tlsOffsetFromTCB : Nat
  baseAddress : Nat → Option Nat

/-- The difference of two addresses. -/
def distance (a b : Nat) : Nat := (a + 2 ^ 64 - b) % 2 ^ 64

def Area.getTLSOffset (area : Area) (i : Nat) : Option Nat :=
  (area.baseAddress i).map fun address => distance address area.mainThreadPointer

/-- `DataLoader::allocateTLS`, where the memory can be mapped; the header is at the end. -/
def allocateTLS (size : Nat) : Nat := (base + roundUp 64 size % 2 ^ 64) % 2 ^ 64

def assign (state : Nat × (Nat → Option Nat)) (x : Nat × Region) : Nat × (Nat → Option Nat) :=
  ((state.1 + x.2.size) % 2 ^ 64, Function.update state.2 x.1 (some ((base + state.1) % 2 ^ 64)))

def allocateTLSArea (p : Program) : Option Area :=
  let size := p.regions.foldl (fun size x => (size + x.2.size) % 2 ^ 64) sizeofEgalitoTLS
  if size = 0 then none
  else
    let mainThreadPointer := allocateTLS size
    let state := (p.regions.filter fun x => some x.1 ≠ p.main).foldl assign (0, fun _ => none)
    -- The region of the executable comes last.
    let state := (p.regions.filter fun x => some x.1 = p.main).foldl assign state
    some ⟨mainThreadPointer, distance base mainThreadPointer, state.2⟩

structure Copy where
  owner : Nat
  address : Nat
  image : List UInt8

def loadRegions : Nat → List (Nat × Region) → List Copy
  | _, [] => []
  | address, x :: rest => ⟨x.1, address, x.2.image⟩ :: loadRegions ((address + x.2.size) % 2 ^ 64) rest

def loadTLSDataFor (p : Program) (area : Area) (tcb : Nat) : List Copy :=
  loadRegions ((tcb + area.tlsOffsetFromTCB) % 2 ^ 64) p.regions

/-! ## The layout -/

/-- The regions are apart and below the thread pointer, and every thread gets each of them at
its offset. -/
structure LaidOut (p : Program) (area : Area) : Prop where
  below : ∀ x ∈ p.regions, ∃ a, area.baseAddress x.1 = some a ∧ a + x.2.size ≤ area.mainThreadPointer
  disjoint : p.regions.Pairwise fun x y => ∀ a b, area.baseAddress x.1 = some a → area.baseAddress y.1 = some b →
    a + x.2.size ≤ b ∨ b + y.2.size ≤ a
  loads : ∀ tcb < 2 ^ 64, loadTLSDataFor p area tcb = p.regions.map fun x =>
    ⟨x.1, (tcb + (area.getTLSOffset x.1).getD 0) % 2 ^ 64, x.2.image⟩

def total (l : List (Nat × Region)) : Nat := (l.map fun x => x.2.size).sum

/-- The area does not reach the end of the address space. -/
def Fits (p : Program) : Prop := base + roundUp 64 (sizeofEgalitoTLS + total p.regions) < 2 ^ 64

/-- No region stands behind that of the executable, unless both are empty. -/
def MainLast (p : Program) : Prop :=
  p.regions.Pairwise fun x y => some x.1 = p.main → x.2.size = 0 ∧ y.2.size = 0

instance (p : Program) : Decidable (MainLast p) := inferInstanceAs (Decidable (List.Pairwise _ _))

/-- The order in which the regions are placed. -/
def Program.order (p : Program) : List (Nat × Region) :=
  (p.regions.filter fun x => some x.1 ≠ p.main) ++ p.regions.filter fun x => some x.1 = p.main

variable {p : Program} {area : Area} {l front back : List (Nat × Region)} {x y : Nat × Region}

@[simp] theorem total_nil : total [] = 0 := rfl

@[simp] theorem total_cons : total (x :: l) = x.2.size + total l := by
  unfold total
  rw [List.map_cons, List.sum_cons]

@[simp] theorem total_append (l l' : List (Nat × Region)) : total (l ++ l') = total l + total l' := by
  unfold total
  rw [List.map_append, List.sum_append]

theorem total_eq_zero_iff : total l = 0 ↔ ∀ x ∈ l, x.2.size = 0 := by
  unfold total
  rw [List.sum_eq_zero_iff, List.forall_mem_map]

theorem total_filter_add (q : Nat × Region → Bool) (l : List (Nat × Region)) :
    total (l.filter q) + total (l.filter fun x => !q x) = total l := by
  rw [← total_append]
  exact ((List.filter_append_perm q l).map _).sum_eq

/-! ## The order of the regions -/

theorem regions_pairwise (p : Program) : p.regions.Pairwise fun x y => x.1 < y.1 := by
  unfold Program.regions
  rw [List.pairwise_filterMap]
  have hzip : p.modules.zipIdx.Pairwise fun x y => x.2 < y.2 := by
    rw [← List.pairwise_map (f := Prod.snd) (R := (· < ·)), List.zipIdx_map_snd]
    exact List.pairwise_lt_range'
  refine hzip.imp fun hlt y hy z hz => ?_
  obtain ⟨r, -, rfl⟩ := Option.map_eq_some_iff.1 hy
  obtain ⟨r', -, rfl⟩ := Option.map_eq_some_iff.1 hz
  exact hlt

theorem order_perm (p : Program) : p.order.Perm p.regions := by
  unfold Program.order
  refine List.perm_append_comm.trans ?_
  have hperm := List.filter_append_perm (fun x : Nat × Region => decide (some x.1 = p.main)) p.regions
  simpa using hperm

theorem order_nodup (p : Program) : (p.order.map Prod.fst).Nodup := by
  have hregions : (p.regions.map Prod.fst).Nodup := by
    rw [List.nodup_iff_pairwise_ne, List.pairwise_map]
    exact (regions_pairwise p).imp fun h => h.ne
  exact ((order_perm p).map _).nodup_iff.2 hregions

/-! ## The addresses -/

theorem foldl_size (l : List (Nat × Region)) (c : Nat) (hc : c < 2 ^ 64) :
    l.foldl (fun size x => (size + x.2.size) % 2 ^ 64) c = (c + total l) % 2 ^ 64 := by
  induction l generalizing c with
  | nil => exact (Nat.mod_eq_of_lt hc).symm
  | cons x l ih =>
    rw [List.foldl_cons, ih _ (Nat.mod_lt _ (by decide)), Nat.mod_add_mod, total_cons, Nat.add_assoc]

theorem foldl_assign_fst (l : List (Nat × Region)) (state : Nat × (Nat → Option Nat)) (hstate : state.1 < 2 ^ 64) :
    (l.foldl assign state).1 = (state.1 + total l) % 2 ^ 64 := by
  induction l generalizing state with
  | nil => exact (Nat.mod_eq_of_lt hstate).symm
  | cons x l ih =>
    rw [List.foldl_cons, ih _ (Nat.mod_lt _ (by decide)), total_cons, ← Nat.add_assoc]
    exact Nat.mod_add_mod _ _ _

theorem assign_self (state : Nat × (Nat → Option Nat)) (x : Nat × Region) :
    (assign state x).2 x.1 = some ((base + state.1) % 2 ^ 64) :=
  Function.update_self _ _ _

theorem foldl_assign_of_ne {i : Nat} (hl : ∀ x ∈ l, x.1 ≠ i) (state : Nat × (Nat → Option Nat)) :
    (l.foldl assign state).2 i = state.2 i := by
  induction l generalizing state with
  | nil => rfl
  | cons x l ih =>
    rw [List.forall_mem_cons] at hl
    rw [List.foldl_cons, ih hl.2]
    exact Function.update_of_ne (Ne.symm hl.1) _ _

/-- What `allocateTLSArea` computes. -/
structure Allocated (p : Program) (area : Area) : Prop where
  pointer : area.mainThreadPointer = allocateTLS ((sizeofEgalitoTLS + total p.regions) % 2 ^ 64)
  offset : area.tlsOffsetFromTCB = distance base area.mainThreadPointer
  address : ∀ {front x back}, p.order = front ++ x :: back →
    area.baseAddress x.1 = some ((base + total front) % 2 ^ 64)

theorem allocated_of_eq (h : allocateTLSArea p = some area) : Allocated p area := by
  unfold allocateTLSArea at h
  dsimp only at h
  rw [foldl_size _ _ (by decide), ← List.foldl_append] at h
  split at h
  · cases h
  · cases h
    refine ⟨rfl, rfl, fun {front x back} horder => ?_⟩
    have hnodup := order_nodup p
    rw [horder, List.map_append, List.map_cons, List.nodup_append, List.nodup_cons] at hnodup
    have hback : ∀ y ∈ back, y.1 ≠ x.1 := fun y hy heq => hnodup.2.1.1 (heq ▸ List.mem_map_of_mem hy)
    change (p.order.foldl assign (0, fun _ => none)).2 x.1 = _
    rw [horder, List.foldl_append, List.foldl_cons, foldl_assign_of_ne hback, assign_self,
      foldl_assign_fst _ _ (by decide), Nat.zero_add, Nat.add_mod_mod]

/-- The room for all regions and for the header, rounded up. -/
def room (p : Program) : Nat := roundUp 64 (sizeofEgalitoTLS + total p.regions)

theorem total_lt_room (p : Program) : total p.regions + 80 ≤ room p := by
  have hle : sizeofEgalitoTLS + total p.regions ≤ room p := le_roundUp (by decide)
  unfold sizeofEgalitoTLS at hle
  omega

theorem room_lt (p : Program) : room p < total p.regions + 144 := by
  have hlt : room p < sizeofEgalitoTLS + total p.regions + 64 := roundUp_lt_add (by decide)
  unfold sizeofEgalitoTLS at hlt
  omega

theorem total_order (p : Program) : total p.order = total p.regions := ((order_perm p).map _).sum_eq

theorem Allocated.pointer_of_fits (h : Allocated p area) (hfits : Fits p) :
    area.mainThreadPointer = base + room p := by
  have hroom : base + room p < 2 ^ 64 := hfits
  have hle := total_lt_room p
  have hsize : (sizeofEgalitoTLS + total p.regions) % 2 ^ 64 = sizeofEgalitoTLS + total p.regions :=
    Nat.mod_eq_of_lt (by unfold sizeofEgalitoTLS; omega)
  rw [h.pointer, hsize]
  change (base + room p % 2 ^ 64) % 2 ^ 64 = _
  omega

theorem Allocated.address_of_fits (h : Allocated p area) (hfits : Fits p) (horder : p.order = front ++ x :: back) :
    area.baseAddress x.1 = some (base + total front) ∧ total front + x.2.size ≤ total p.regions := by
  have hroom : base + room p < 2 ^ 64 := hfits
  have hle := total_lt_room p
  have htotal := total_order p
  rw [horder, total_append, total_cons] at htotal
  refine ⟨?_, by omega⟩
  rw [h.address horder, Nat.mod_eq_of_lt (by omega)]

/-- If the regions are below the thread pointer, nothing has wrapped around. -/
theorem Allocated.fits (h : Allocated p area)
    (hbelow : ∀ x ∈ p.regions, ∃ a, area.baseAddress x.1 = some a ∧ a + x.2.size ≤ area.mainThreadPointer) :
    Fits p := by
  have hpointer : area.mainThreadPointer < 2 ^ 64 := by
    rw [h.pointer]
    exact Nat.mod_lt _ (by decide)
  -- The end of each region in turn is the address of the next one.
  have hends : ∀ front back, p.order = front ++ back → front ≠ [] → base + total front ≤ area.mainThreadPointer := by
    intro front
    induction front using List.reverseRecOn with
    | nil => exact fun _ _ hne => absurd rfl hne
    | append_singleton front x ih =>
      intro back horder _
      rw [List.append_assoc, List.singleton_append] at horder
      have hlt : base + total front < 2 ^ 64 := by
        by_cases hfront : front = []
        · rw [hfront]
          decide
        · exact Nat.lt_of_le_of_lt (ih _ horder hfront) hpointer
      obtain ⟨a, ha, hend⟩ := hbelow x ((order_perm p).mem_iff.1 (by rw [horder]; simp))
      rw [h.address horder, Nat.mod_eq_of_lt hlt] at ha
      cases ha
      rw [total_append, total_cons, total_nil]
      omega
  have hroom := total_lt_room p
  have hroom' := room_lt p
  change base + room p < 2 ^ 64
  by_cases hempty : p.order = []
  · have htotal := total_order p
    rw [hempty, total_nil] at htotal
    unfold base
    omega
  · have hend := hends p.order [] (List.append_nil _).symm hempty
    rw [total_order] at hend
    have hsize : (sizeofEgalitoTLS + total p.regions) % 2 ^ 64 = sizeofEgalitoTLS + total p.regions :=
      Nat.mod_eq_of_lt (by unfold sizeofEgalitoTLS; unfold base at hend; omega)
    have hpointer' : area.mainThreadPointer = (base + room p % 2 ^ 64) % 2 ^ 64 := by
      rw [h.pointer, hsize]
      rfl
    unfold base at hend hpointer' ⊢
    omega

/-! ## The threads -/

theorem loadRegions_eq_map_iff {address : Nat} {g : Nat × Region → Copy} (haddress : address < 2 ^ 64) :
    loadRegions address l = l.map g ↔
      ∀ front x back, l = front ++ x :: back → g x = ⟨x.1, (address + total front) % 2 ^ 64, x.2.image⟩ := by
  induction l generalizing address with
  | nil => simp [loadRegions]
  | cons y l ih =>
    rw [loadRegions, List.map_cons, List.cons.injEq, ih (Nat.mod_lt _ (by decide))]
    constructor
    · rintro ⟨hy, hl⟩ front x back heq
      cases front with
      | nil =>
        cases heq
        rw [← hy, total_nil, Nat.add_zero, Nat.mod_eq_of_lt haddress]
      | cons z front =>
        cases heq
        rw [hl front x back rfl, Nat.mod_add_mod, total_cons, Nat.add_assoc]
    · intro h
      refine ⟨?_, fun front x back heq => ?_⟩
      · rw [h [] y l rfl, total_nil, Nat.add_zero, Nat.mod_eq_of_lt haddress]
      · rw [h (y :: front) x back (by rw [heq]; rfl), Nat.mod_add_mod, total_cons, Nat.add_assoc]

/-- Where the regions come in the same place in both orders. -/
def SamePlaces (p : Program) : Prop :=
  ∀ front x back, p.regions = front ++ x :: back → ∀ front' back', p.order = front' ++ x :: back' →
    total front' = total front

theorem loads_iff (h : Allocated p area) (hfits : Fits p) :
    (∀ tcb < 2 ^ 64, loadTLSDataFor p area tcb = p.regions.map fun x =>
      ⟨x.1, (tcb + (area.getTLSOffset x.1).getD 0) % 2 ^ 64, x.2.image⟩) ↔ SamePlaces p := by
  have hroom : base + room p < 2 ^ 64 := hfits
  have hle := total_lt_room p
  have hplace : ∀ tcb front x back front' back', p.regions = front ++ x :: back → p.order = front' ++ x :: back' →
      ((tcb + (area.getTLSOffset x.1).getD 0) % 2 ^ 64 =
        ((tcb + area.tlsOffsetFromTCB) % 2 ^ 64 + total front) % 2 ^ 64 ↔ total front' = total front) := by
    intro tcb front x back front' back' hregions horder
    obtain ⟨haddress, hbound'⟩ := h.address_of_fits hfits horder
    have hbound : total front ≤ total p.regions := by
      rw [hregions, total_append]
      omega
    unfold Area.getTLSOffset
    rw [haddress, h.offset, h.pointer_of_fits hfits, Option.map_some, Option.getD_some]
    unfold distance
    omega
  unfold loadTLSDataFor
  constructor
  · intro hloads front x back hregions front' back' horder
    have hcopies := (loadRegions_eq_map_iff (Nat.mod_lt _ (by decide))).1 (hloads 0 (by decide)) front x back hregions
    exact (hplace 0 front x back front' back' hregions horder).1 (congrArg Copy.address hcopies)
  · intro hsame tcb _
    refine (loadRegions_eq_map_iff (Nat.mod_lt _ (by decide))).2 fun front x back hregions => ?_
    have hmem : x ∈ p.order := (order_perm p).mem_iff.2 (by rw [hregions]; simp)
    obtain ⟨front', back', horder⟩ := List.append_of_mem hmem
    rw [(hplace tcb front x back front' back' hregions horder).2 (hsame _ _ _ hregions _ _ horder)]

/-- Other regions keep their order, and that of the executable comes behind all of them. -/
theorem order_split (hregions : p.regions = front ++ x :: back) :
    ∃ front' back', p.order = front' ++ x :: back' ∧
      (some x.1 ≠ p.main → total front' + total (front.filter fun y => some y.1 = p.main) = total front) ∧
      (some x.1 = p.main → total front' = total front + total back) := by
  have hpairwise := regions_pairwise p
  rw [hregions, List.pairwise_append, List.pairwise_cons] at hpairwise
  obtain ⟨-, ⟨hback, -⟩, hfront⟩ := hpairwise
  unfold Program.order
  by_cases hx : some x.1 = p.main
  · have hfront' : ∀ y ∈ front, some y.1 ≠ p.main := fun y hy hmain => by
      have := hfront y hy x List.mem_cons_self
      rw [← hx, Option.some.injEq] at hmain
      omega
    have hback' : ∀ y ∈ back, some y.1 ≠ p.main := fun y hy hmain => by
      have := hback y hy
      rw [← hx, Option.some.injEq] at hmain
      omega
    have hkeep : ∀ l : List (Nat × Region), (∀ y ∈ l, some y.1 ≠ p.main) → (l.filter fun y => some y.1 ≠ p.main) = l ∧
        (l.filter fun y => some y.1 = p.main) = [] := fun l hl =>
      ⟨List.filter_eq_self.2 fun y hy => decide_eq_true (hl y hy),
        List.filter_eq_nil_iff.2 fun y hy => by simpa using hl y hy⟩
    refine ⟨front ++ back, [], ?_, fun hne => absurd hx hne, fun _ => total_append _ _⟩
    rw [hregions, List.filter_append, List.filter_append, List.filter_cons_of_neg (by simpa using hx),
      List.filter_cons_of_pos (by simpa using hx), (hkeep front hfront').1, (hkeep front hfront').2,
      (hkeep back hback').1, (hkeep back hback').2]
    rfl
  · refine ⟨front.filter fun y => some y.1 ≠ p.main, (back.filter fun y => some y.1 ≠ p.main) ++
      p.regions.filter fun y => some y.1 = p.main, ?_, fun _ => ?_, fun hmain => absurd hmain hx⟩
    · have hothers : (p.regions.filter fun y => some y.1 ≠ p.main) =
          (front.filter fun y => some y.1 ≠ p.main) ++ x :: back.filter fun y => some y.1 ≠ p.main := by
        rw [hregions, List.filter_append, List.filter_cons_of_pos (by simpa using hx)]
      rw [hothers, List.append_assoc]
      rfl
    · have hsum := total_filter_add (fun y => decide (some y.1 = p.main)) front
      simp only [decide_not] at hsum ⊢
      omega

theorem order_eq_of_split {front' back' : List (Nat × Region)} (h : p.order = front ++ x :: back)
    (h' : p.order = front' ++ x :: back') : front' = front := by
  have hnodup : p.order.Nodup := List.Nodup.of_map _ (order_nodup p)
  rw [h, List.nodup_append, List.nodup_cons] at hnodup
  have hfront : x ∉ front := fun hmem => hnodup.2.2 x hmem x List.mem_cons_self rfl
  exact ((List.append_cons_inj_of_notMem hfront hnodup.2.1.1).1 (h.symm.trans h')).1.symm

theorem samePlaces_iff (p : Program) : SamePlaces p ↔ MainLast p := by
  unfold MainLast
  rw [pairwise_iff_split]
  constructor
  · intro hsame front x back hregions y hy hx
    constructor
    · -- A region behind that of the executable has it in front of it only when it is loaded.
      obtain ⟨middle, back', rfl⟩ := List.append_of_mem hy
      have hregions' : p.regions = (front ++ x :: middle) ++ y :: back' := by
        rw [hregions, List.append_assoc]
        rfl
      obtain ⟨front'', back'', horder, hothers, -⟩ := order_split hregions'
      have hxy : x.1 < y.1 := pairwise_iff_split.1 (regions_pairwise p) front x _ hregions y hy
      have hsum := hothers fun hmain => by
        rw [← hx, Option.some.injEq] at hmain
        omega
      rw [hsame _ _ _ hregions' _ _ horder] at hsum
      have hzero : total ((front ++ x :: middle).filter fun y => some y.1 = p.main) = 0 := by omega
      exact total_eq_zero_iff.1 hzero x (by simp [hx])
    · obtain ⟨front'', back'', horder, -, hmain⟩ := order_split hregions
      have hsum := hmain hx
      rw [hsame _ _ _ hregions _ _ horder] at hsum
      exact total_eq_zero_iff.1 (show total back = 0 by omega) y hy
  · intro hlast front x back hregions front' back' horder
    obtain ⟨front'', back'', horder', hothers, hmain⟩ := order_split hregions
    rw [order_eq_of_split horder' horder]
    by_cases hx : some x.1 = p.main
    · have hback : total back = 0 := total_eq_zero_iff.2 fun y hy => (hlast front x back hregions y hy hx).2
      rw [hmain hx, hback, Nat.add_zero]
    · have hfront : total (front.filter fun y => some y.1 = p.main) = 0 := total_eq_zero_iff.2 fun y hy => by
        obtain ⟨hmem, hown⟩ := List.mem_filter.1 hy
        obtain ⟨front₁, front₂, rfl⟩ := List.append_of_mem hmem
        have hregions' : p.regions = front₁ ++ y :: (front₂ ++ x :: back) := by
          rw [hregions, List.append_assoc]
          rfl
        exact (hlast front₁ y _ hregions' x (by simp) (of_decide_eq_true hown)).1
      have hsum := hothers hx
      omega

/-- In the order of their places, each region ends before the next one. -/
theorem Allocated.disjoint (h : Allocated p area) (hfits : Fits p) :
    p.regions.Pairwise fun x y => ∀ a b, area.baseAddress x.1 = some a → area.baseAddress y.1 = some b →
      a + x.2.size ≤ b ∨ b + y.2.size ≤ a := by
  refine ((order_perm p).pairwise_iff fun hxy a b ha hb => (hxy b a hb ha).symm).1 ?_
  rw [pairwise_iff_split]
  intro front x back horder y hy a b ha hb
  obtain ⟨middle, back', rfl⟩ := List.append_of_mem hy
  have horder' : p.order = (front ++ x :: middle) ++ y :: back' := by
    rw [horder, List.append_assoc]
    rfl
  rw [(h.address_of_fits hfits horder).1] at ha
  rw [(h.address_of_fits hfits horder').1, total_append, total_cons] at hb
  cases ha
  cases hb
  omega

theorem exists_area (hfits : Fits p) : ∃ area, allocateTLSArea p = some area := by
  have hroom : base + room p < 2 ^ 64 := hfits
  have hle := total_lt_room p
  unfold allocateTLSArea
  dsimp only
  rw [foldl_size _ _ (by decide), if_neg]
  · exact ⟨_, rfl⟩
  · unfold sizeofEgalitoTLS
    omega

/-- The area is laid out as it should, for all threads, exactly if it fits into the address space and no
region stands behind that of the executable. -/
theorem tlsArea_laidOut_iff (p : Program) :
    (∃ area, allocateTLSArea p = some area ∧ LaidOut p area) ↔ Fits p ∧ MainLast p := by
  constructor
  · rintro ⟨area, harea, hlaidOut⟩
    have hallocated := allocated_of_eq harea
    have hfits := hallocated.fits hlaidOut.below
    exact ⟨hfits, (samePlaces_iff p).1 ((loads_iff hallocated hfits).1 hlaidOut.loads)⟩
  · rintro ⟨hfits, hlast⟩
    obtain ⟨area, harea⟩ := exists_area hfits
    have hallocated := allocated_of_eq harea
    refine ⟨area, harea, ?_, hallocated.disjoint hfits, (loads_iff hallocated hfits).2 ((samePlaces_iff p).2 hlast)⟩
    · intro x hx
      obtain ⟨front, back, horder⟩ := List.append_of_mem ((order_perm p).mem_iff.2 hx)
      obtain ⟨haddress, hend⟩ := hallocated.address_of_fits hfits horder
      have hroom := total_lt_room p
      exact ⟨_, haddress, by rw [hallocated.pointer_of_fits hfits]; omega⟩

/-- An executable and a library behind it, each with one byte. -/
def mainFirst : Program := ⟨[some ⟨1, [1], by decide, by decide⟩, some ⟨1, [2], by decide, by decide⟩], some 0⟩

/-- The library's byte is at the base, but for other threads the executable's is. -/
theorem mainFirst_swapped : ¬ ∃ area, allocateTLSArea mainFirst = some area ∧ LaidOut mainFirst area := by
  rintro ⟨area, harea, hlaidOut⟩
  have hallocated := allocated_of_eq harea
  have hloads := (loads_iff hallocated (hallocated.fits hlaidOut.below)).1 hlaidOut.loads
  exact absurd ((samePlaces_iff mainFirst).1 hloads) (by decide)

end Egalito.Conductor.TLSArea
