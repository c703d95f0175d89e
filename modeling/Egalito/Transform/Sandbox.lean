import Egalito.Lib.Align
/-!
# Sandboxes

`transform/sandbox.h`: the allocators that cut a region of the address space
into slots from its base upwards. A word is 64 bits wide and its sums wrap,
also in the test whether a request fits.
-/

open Egalito.Lib

namespace Egalito.Transform

/-- `transform/slot.h` -/
structure Slot where
  address : UInt64
  size : UInt64
  deriving DecidableEq, Repr

def Slot.Contains (slot : Slot) (n : Nat) : Prop :=
  slot.address.toNat ≤ n ∧ n < slot.address.toNat + slot.size.toNat

def Slot.Disjoint (s t : Slot) : Prop := ∀ n, ¬ (s.Contains n ∧ t.Contains n)

/-- A region, which ends inside the address space. -/
structure SandboxBacking where
  base : UInt64
  size : UInt64
  ends : base.toNat + size.toNat < 2 ^ 64

/-- The address behind the region. -/
def SandboxBacking.bound (backing : SandboxBacking) : Nat := backing.base.toNat + backing.size.toNat

/-- `std::bad_alloc` -/
inductive BadAlloc
  | badAlloc
  deriving DecidableEq, Repr

/-- What both allocators hold. -/
structure Allocator where
  backing : SandboxBacking
  base : UInt64
  watermark : UInt64

def Allocator.new (backing : SandboxBacking) : Allocator := ⟨backing, backing.base, backing.base⟩

/-- An alignment is a power of two; the code has 2 on x86-64 and 1 elsewhere. -/
structure Alignment where
  word : UInt64
  exponent : Nat
  isPow : word.toNat = 2 ^ exponent

/-- The part of `allocate` that the two allocators share; the state stands beside the
exception. -/
def place (s : Allocator) (request : UInt64) : Except BadAlloc Slot × Allocator :=
  let max := s.backing.base + s.backing.size
  if s.watermark + request > max then (.error .badAlloc, s)
  else
    let region := s.watermark
    (.ok ⟨region, request⟩, { s with watermark := s.watermark + request })

def WatermarkAllocator.allocate (s : Allocator) (request : UInt64) : Except BadAlloc Slot × Allocator :=
  place s request

def AlignedWatermarkAllocator.allocate (alignment : Alignment) (s : Allocator) (request : UInt64) :
    Except BadAlloc Slot × Allocator :=
  place s (request + alignment.word - 1 &&& ~~~(alignment.word - 1))

/-- The allocator classes that a sandbox is built with. -/
inductive AllocatorClass
  | watermark
  | alignedWatermark (alignment : Alignment)

def AllocatorClass.allocate : AllocatorClass → Allocator → UInt64 → Except BadAlloc Slot × Allocator
  | .watermark => WatermarkAllocator.allocate
  | .alignedWatermark alignment => AlignedWatermarkAllocator.allocate alignment

def AllocatorClass.alignment : AllocatorClass → Nat
  | .watermark => 1
  | .alignedWatermark alignment => alignment.word.toNat

/-! ## Runs -/

/-- A call of `allocate`, with the states around it. -/
structure Call where
  before : Allocator
  request : UInt64
  outcome : Except BadAlloc Slot
  after : Allocator

def Call.granted? (call : Call) : Option Slot := call.outcome.toOption

/-- The requests one after the other; a call that raised is followed by the next one. -/
def AllocatorClass.calls (cls : AllocatorClass) : Allocator → List UInt64 → List Call
  | _, [] => []
  | s, request :: requests =>
    let (outcome, s') := cls.allocate s request
    ⟨s, request, outcome, s'⟩ :: cls.calls s' requests

/-- What a sandbox promises of a run. -/
structure Sound (cls : AllocatorClass) (backing : SandboxBacking) (calls : List Call) : Prop where
  disjoint : (calls.filterMap Call.granted?).Pairwise Slot.Disjoint
  large : ∀ call ∈ calls, ∀ slot, call.outcome = .ok slot → call.request.toNat ≤ slot.size.toNat
  inside : ∀ call ∈ calls, ∀ slot, call.outcome = .ok slot →
    backing.base.toNat ≤ slot.address.toNat ∧ slot.address.toNat + slot.size.toNat ≤ backing.bound
  rounded : ∀ call ∈ calls, ∀ slot, call.outcome = .ok slot →
    slot.size.toNat = roundUp cls.alignment call.request.toNat
  aligned : cls.alignment ∣ backing.base.toNat → ∀ call ∈ calls, ∀ slot, call.outcome = .ok slot →
    cls.alignment ∣ slot.address.toNat
  raises : ∀ call ∈ calls, backing.bound < call.before.watermark.toNat + roundUp cls.alignment call.request.toNat →
    call.outcome = .error .badAlloc
  unchanged : ∀ call ∈ calls, call.outcome = .error .badAlloc → call.after = call.before

/-- The sum in the test of a call does not wrap. -/
def Call.InWord (cls : AllocatorClass) (call : Call) : Prop :=
  call.before.watermark.toNat + roundUp cls.alignment call.request.toNat < 2 ^ 64

/-! ## One call -/

theorem alignment_pos (cls : AllocatorClass) : 0 < cls.alignment := by
  cases cls with
  | watermark => exact Nat.one_pos
  | alignedWatermark alignment =>
    change 0 < alignment.word.toNat
    rw [alignment.isPow]
    exact Nat.two_pow_pos _

theorem alignment_dvd (cls : AllocatorClass) : cls.alignment ∣ 2 ^ 64 := by
  cases cls with
  | watermark => exact Nat.one_dvd _
  | alignedWatermark alignment =>
    change alignment.word.toNat ∣ 2 ^ 64
    rw [alignment.isPow]
    exact pow_dvd_pow 2 (lt_of_toNat_eq_two_pow alignment.isPow).le

/-- What `allocate` asks the region for. -/
theorem exists_place (cls : AllocatorClass) (s : Allocator) (request : UInt64) : ∃ rounded : UInt64,
    cls.allocate s request = place s rounded ∧ rounded.toNat = roundUp cls.alignment request.toNat % 2 ^ 64 := by
  cases cls with
  | watermark =>
    refine ⟨request, rfl, ?_⟩
    change _ = roundUp 1 _ % _
    rw [roundUp_one, Nat.mod_eq_of_lt request.toNat_lt]
  | alignedWatermark alignment => exact ⟨_, rfl, toNat_align alignment.isPow request⟩

/-- The watermark is in the region, and aligned if the base is. -/
structure InRegion (cls : AllocatorClass) (s : Allocator) : Prop where
  above : s.backing.base.toNat ≤ s.watermark.toNat
  below : s.watermark.toNat ≤ s.backing.bound
  aligned : cls.alignment ∣ s.backing.base.toNat → cls.alignment ∣ s.watermark.toNat

theorem toNat_bound (backing : SandboxBacking) : (backing.base + backing.size).toNat = backing.bound := by
  rw [UInt64.toNat_add, Nat.mod_eq_of_lt backing.ends, SandboxBacking.bound]

/-- The two ways in which a call whose sum does not wrap ends. -/
theorem allocate_cases {cls : AllocatorClass} {s : Allocator} {request : UInt64}
    (hword : s.watermark.toNat + roundUp cls.alignment request.toNat < 2 ^ 64) :
    (s.watermark.toNat + roundUp cls.alignment request.toNat ≤ s.backing.bound ∧
      ∃ slot : Slot, ∃ watermark : UInt64, cls.allocate s request = (.ok slot, { s with watermark }) ∧
        slot.address = s.watermark ∧ slot.size.toNat = roundUp cls.alignment request.toNat ∧
        watermark.toNat = s.watermark.toNat + roundUp cls.alignment request.toNat) ∨
    (s.backing.bound < s.watermark.toNat + roundUp cls.alignment request.toNat ∧
      cls.allocate s request = (.error .badAlloc, s)) := by
  obtain ⟨rounded, hplace, hrounded⟩ := exists_place cls s request
  rw [Nat.mod_eq_of_lt (by omega)] at hrounded
  have hsum : (s.watermark + rounded).toNat = s.watermark.toNat + roundUp cls.alignment request.toNat := by
    rw [UInt64.toNat_add, hrounded, Nat.mod_eq_of_lt hword]
  have hiff : s.backing.base + s.backing.size < s.watermark + rounded ↔
      s.backing.bound < s.watermark.toNat + roundUp cls.alignment request.toNat := by
    rw [UInt64.lt_iff_toNat_lt, toNat_bound, hsum]
  rw [hplace]
  by_cases hfit : s.backing.bound < s.watermark.toNat + roundUp cls.alignment request.toNat
  · exact .inr ⟨hfit, if_pos (hiff.2 hfit)⟩
  · exact .inl ⟨Nat.le_of_not_lt hfit, _, _, if_neg (mt hiff.1 hfit), rfl, hrounded, hsum⟩

/-- A sum that wraps is below the bound. -/
theorem allocate_of_wrap {cls : AllocatorClass} {s : Allocator} {request : UInt64} (hs : InRegion cls s)
    (hwrap : 2 ^ 64 ≤ s.watermark.toNat + roundUp cls.alignment request.toNat) :
    ∃ slot, (cls.allocate s request).1 = .ok slot := by
  obtain ⟨rounded, hplace, hrounded⟩ := exists_place cls s request
  have hle : roundUp cls.alignment request.toNat ≤ 2 ^ 64 :=
    (roundUp_le_iff (alignment_pos cls) (alignment_dvd cls)).2 request.toNat_lt.le
  have hmark := s.watermark.toNat_lt
  have hbelow := hs.below
  have hsum : (s.watermark + rounded).toNat = s.watermark.toNat + roundUp cls.alignment request.toNat - 2 ^ 64 := by
    rw [UInt64.toNat_add, hrounded, Nat.add_mod_mod, Nat.mod_eq_sub_mod hwrap, Nat.mod_eq_of_lt (by omega)]
  have hgrant : ¬ s.backing.base + s.backing.size < s.watermark + rounded := by
    rw [UInt64.lt_iff_toNat_lt, toNat_bound, hsum]
    omega
  unfold place at hplace
  rw [hplace, if_neg hgrant]
  exact ⟨_, rfl⟩

/-! ## All calls -/

section

variable {cls : AllocatorClass} {s : Allocator}

theorem inRegion_new (cls : AllocatorClass) (backing : SandboxBacking) : InRegion cls (.new backing) :=
  ⟨Nat.le_refl _, Nat.le_add_right _ _, id⟩

/-- A call whose sum does not wrap keeps the watermark in the region and never lowers it. -/
theorem inRegion_allocate {request : UInt64} (hs : InRegion cls s)
    (hword : s.watermark.toNat + roundUp cls.alignment request.toNat < 2 ^ 64) :
    InRegion cls (cls.allocate s request).2 ∧ (cls.allocate s request).2.backing = s.backing ∧
      s.watermark.toNat ≤ (cls.allocate s request).2.watermark.toNat := by
  rcases allocate_cases hword with ⟨hfit, slot, watermark, hrun, -, -, hmark⟩ | ⟨-, hrun⟩
  · rw [hrun]
    refine ⟨⟨?_, ?_, fun hbase => ?_⟩, rfl, by dsimp only; omega⟩
    · have habove := hs.above
      dsimp only
      omega
    · dsimp only
      omega
    · dsimp only
      rw [hmark]
      exact Nat.dvd_add (hs.aligned hbase) dvd_roundUp
  · rw [hrun]
    exact ⟨hs, rfl, Nat.le_refl _⟩

theorem calls_cons (cls : AllocatorClass) (s : Allocator) (request : UInt64) (requests : List UInt64) :
    cls.calls s (request :: requests) =
      ⟨s, request, (cls.allocate s request).1, (cls.allocate s request).2⟩ ::
        cls.calls (cls.allocate s request).2 requests := rfl

/-- Every call of a run starts in the region, not below the watermark that the run started with. -/
theorem inRegion_of_mem_calls {requests : List UInt64} (hs : InRegion cls s)
    (h : ∀ call ∈ cls.calls s requests, call.InWord cls) : ∀ call ∈ cls.calls s requests,
      InRegion cls call.before ∧ call.before.backing = s.backing ∧
        s.watermark.toNat ≤ call.before.watermark.toNat ∧
        cls.allocate call.before call.request = (call.outcome, call.after) := by
  induction requests generalizing s with
  | nil => exact fun _ hmem => nomatch hmem
  | cons request requests ih =>
    rw [calls_cons] at h ⊢
    rw [List.forall_mem_cons] at h ⊢
    obtain ⟨hs', hbacking, hmark⟩ := inRegion_allocate hs h.1
    refine ⟨⟨hs, rfl, Nat.le_refl _, rfl⟩, fun call hcall => ?_⟩
    obtain ⟨hregion, hsame, hle, hrun⟩ := ih hs' h.2 call hcall
    exact ⟨hregion, hsame.trans hbacking, hmark.trans hle, hrun⟩

/-- A granted slot starts at the watermark before its call. -/
theorem granted_spec {call : Call} {slot : Slot} (hword : call.InWord cls)
    (hrun : cls.allocate call.before call.request = (call.outcome, call.after)) (hslot : call.outcome = .ok slot) :
    slot.address = call.before.watermark ∧ slot.size.toNat = roundUp cls.alignment call.request.toNat ∧
      slot.address.toNat + slot.size.toNat ≤ call.before.backing.bound ∧
      call.after.watermark.toNat = slot.address.toNat + slot.size.toNat := by
  rcases allocate_cases hword with ⟨hfit, slot', watermark, hrun', haddress, hsize, hmark⟩ | ⟨-, hrun'⟩
  · obtain ⟨houtcome, hafter⟩ := Prod.mk.inj (hrun.symm.trans hrun')
    obtain rfl : slot' = slot := Except.ok.inj (houtcome.symm.trans hslot)
    rw [hafter, haddress, hsize]
    exact ⟨rfl, rfl, hfit, hmark⟩
  · cases hslot.symm.trans (Prod.mk.inj (hrun.symm.trans hrun')).1

theorem granted?_eq_some {call : Call} {slot : Slot} (h : call.granted? = some slot) : call.outcome = .ok slot := by
  unfold Call.granted? at h
  cases houtcome : call.outcome with
  | error e =>
    rw [houtcome] at h
    cases h
  | ok slot' =>
    rw [houtcome] at h
    exact congrArg Except.ok (Option.some.inj h)

theorem pairwise_disjoint {requests : List UInt64} (hs : InRegion cls s)
    (h : ∀ call ∈ cls.calls s requests, call.InWord cls) :
    ((cls.calls s requests).filterMap Call.granted?).Pairwise Slot.Disjoint := by
  induction requests generalizing s with
  | nil => exact .nil
  | cons request requests ih =>
    rw [calls_cons] at h ⊢
    have hword := h _ List.mem_cons_self
    have hrest := fun call hcall => h call (List.mem_cons_of_mem _ hcall)
    obtain ⟨hs', -, -⟩ := inRegion_allocate hs hword
    rw [List.filterMap_cons]
    split
    · exact ih hs' hrest
    · rename_i slot hslot
      refine List.pairwise_cons.2 ⟨fun slot' hslot' n hn => ?_, ih hs' hrest⟩
      -- every later slot starts at or behind the end of this one
      obtain ⟨call, hcall, hgranted⟩ := List.mem_filterMap.1 hslot'
      obtain ⟨-, -, hle, hrun⟩ := inRegion_of_mem_calls hs' hrest call hcall
      have hend : (cls.allocate s request).2.watermark.toNat = slot.address.toNat + slot.size.toNat :=
        (granted_spec hword rfl (granted?_eq_some hslot)).2.2.2
      have hstart := (granted_spec (hrest call hcall) hrun (granted?_eq_some hgranted)).1
      obtain ⟨⟨-, hn⟩, hn', -⟩ := hn
      rw [hstart] at hn'
      dsimp only at hle
      omega

theorem sound_of_inWord {requests : List UInt64} (hs : InRegion cls s)
    (h : ∀ call ∈ cls.calls s requests, call.InWord cls) : Sound cls s.backing (cls.calls s requests) := by
  have hcall := inRegion_of_mem_calls hs h
  refine ⟨pairwise_disjoint hs h, ?_, ?_, ?_, ?_, ?_, ?_⟩
  · intro call hmem slot hslot
    rw [(granted_spec (h call hmem) (hcall call hmem).2.2.2 hslot).2.1]
    exact le_roundUp (alignment_pos cls)
  · intro call hmem slot hslot
    obtain ⟨hregion, hbacking, -, hrun⟩ := hcall call hmem
    obtain ⟨haddress, -, hbound, -⟩ := granted_spec (h call hmem) hrun hslot
    rw [← hbacking]
    exact ⟨haddress ▸ hregion.above, hbound⟩
  · intro call hmem slot hslot
    exact (granted_spec (h call hmem) (hcall call hmem).2.2.2 hslot).2.1
  · intro hbase call hmem slot hslot
    obtain ⟨hregion, hbacking, -, hrun⟩ := hcall call hmem
    rw [(granted_spec (h call hmem) hrun hslot).1]
    exact hregion.aligned (hbacking ▸ hbase)
  · intro call hmem hlarge
    obtain ⟨-, hbacking, -, hrun⟩ := hcall call hmem
    rcases allocate_cases (h call hmem) with ⟨hfit, -⟩ | ⟨-, hrun'⟩
    · rw [hbacking] at hfit
      omega
    · exact (Prod.mk.inj (hrun.symm.trans hrun')).1
  · intro call hmem hraise
    obtain ⟨-, -, -, hrun⟩ := hcall call hmem
    rcases allocate_cases (h call hmem) with ⟨-, slot, watermark, hrun', -⟩ | ⟨-, hrun'⟩
    · cases hraise.symm.trans (Prod.mk.inj (hrun.symm.trans hrun')).1
    · exact (Prod.mk.inj (hrun.symm.trans hrun')).2

/-- The first call whose sum wraps is granted, though it does not fit. -/
theorem inWord_of_raises {requests : List UInt64} (hs : InRegion cls s)
    (h : ∀ call ∈ cls.calls s requests,
      s.backing.bound < call.before.watermark.toNat + roundUp cls.alignment call.request.toNat →
        call.outcome = .error .badAlloc) :
    ∀ call ∈ cls.calls s requests, call.InWord cls := by
  induction requests generalizing s with
  | nil => exact fun _ hmem => nomatch hmem
  | cons request requests ih =>
    rw [calls_cons] at h ⊢
    rw [List.forall_mem_cons] at h ⊢
    have hword : s.watermark.toNat + roundUp cls.alignment request.toNat < 2 ^ 64 := by
      by_contra hwrap
      have hends := s.backing.ends
      obtain ⟨slot, hslot⟩ := allocate_of_wrap hs (Nat.le_of_not_lt hwrap)
      cases hslot.symm.trans (h.1 (by dsimp only [SandboxBacking.bound]; omega))
    obtain ⟨hs', hbacking, -⟩ := inRegion_allocate hs hword
    refine ⟨hword, ih hs' fun call hmem => ?_⟩
    rw [hbacking]
    exact h.2 call hmem

end

/-- The sandbox keeps its promises in a run exactly if the sum of the watermark and the
rounded request stays below 2^64 in every call. -/
theorem allocations_sound_iff (cls : AllocatorClass) (backing : SandboxBacking) (requests : List UInt64) :
    Sound cls backing (cls.calls (.new backing) requests) ↔
      ∀ call ∈ cls.calls (.new backing) requests, call.InWord cls :=
  ⟨fun h => inWord_of_raises (inRegion_new cls backing) h.raises, sound_of_inWord (inRegion_new cls backing)⟩

/-- The region of a mirror ELF, as `conductor/setup.cpp` makes it. -/
def sampleBacking : SandboxBacking := ⟨0x40000000, 0x10000000, by decide⟩

/-- The alignment on x86-64. -/
def sampleClass : AllocatorClass := .alignedWatermark ⟨2, 1, rfl⟩

/-- A request of 2^64 - 1 bytes rounds to none. -/
theorem hugeRequest_granted :
    ¬ Sound sampleClass sampleBacking (sampleClass.calls (.new sampleBacking) [0xffffffffffffffff]) := by
  intro h
  exact absurd (h.large _ List.mem_cons_self ⟨0x40000000, 0⟩ rfl) (by decide)

end Egalito.Transform
