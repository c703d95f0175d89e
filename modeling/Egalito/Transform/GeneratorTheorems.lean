import Egalito.Transform.Generator
/-!
# The code lands where it was assigned

The functions of a module get their slots in one order and are written in
another; by then the slots are their addresses, so the two orders differ at most
in functions without code.
-/

open Egalito.Lib

namespace Egalito.Transform

variable {program : Program} {s s' : GeneratorState} {c : Nat}

theorem bind_eq_ok {α β : Type} {x : Except Failure α} {f : α → Except Failure β} {b : β} (h : x >>= f = .ok b) :
    ∃ a, x = .ok a ∧ f a = .ok b := by
  cases x with
  | error e => cases h
  | ok a => exact ⟨a, rfl, h⟩

/-! ## What the code adds to the buffer -/

def Wrote (s : GeneratorState) (bytes : List UInt8) (s' : GeneratorState) : Prop :=
  s' = { s with buffer := s.buffer ++ bytes } ∧ s'.buffer.length ≤ maxSize

theorem Wrote.trans {s₁ : GeneratorState} {bytes bytes' : List UInt8} (h : Wrote s bytes s₁) (h' : Wrote s₁ bytes' s') :
    Wrote s (bytes ++ bytes') s' := by
  refine ⟨?_, h'.2⟩
  rw [h'.1, h.1, List.append_assoc]

theorem wrote_nil (hs : s.buffer.length ≤ maxSize) : Wrote s [] s := by
  refine ⟨?_, hs⟩
  rw [List.append_nil]

theorem wrote_append {bytes : List UInt8} (h : append s bytes = .ok s') : Wrote s bytes s' := by
  unfold append at h
  split at h
  case isTrue hlen =>
    cases h
    exact ⟨rfl, by rw [List.length_append]; exact hlen⟩
  case isFalse => cases h

/-- A loop whose rounds write. -/
theorem wrote_foldlM {α : Type} {step : GeneratorState → α → Except Failure GeneratorState} {emit : α → List UInt8}
    (hstep : ∀ s₁ s₂ x, s₁.assigned = s.assigned → s₁.buffer.length ≤ maxSize → step s₁ x = .ok s₂ → Wrote s₁ (emit x) s₂)
    (hs : s.buffer.length ≤ maxSize) {l : List α} (h : l.foldlM step s = .ok s') : Wrote s (l.flatMap emit) s' := by
  suffices ∀ s₁, s₁.assigned = s.assigned → s₁.buffer.length ≤ maxSize → l.foldlM step s₁ = .ok s' →
      Wrote s₁ (l.flatMap emit) s' from this s rfl hs h
  clear h hs
  induction l with
  | nil =>
    intro s₁ _ hs₁ h
    cases h
    exact wrote_nil hs₁
  | cons x l ih =>
    intro s₁ hsame hs₁ h
    rw [List.foldlM_cons] at h
    obtain ⟨s₂, hx, h⟩ := bind_eq_ok h
    have hwrote := hstep s₁ s₂ x hsame hs₁ hx
    have hsame₂ : s₂.assigned = s.assigned := by rw [hwrote.1]; exact hsame
    rw [List.flatMap_cons]
    exact hwrote.trans (ih s₂ hsame₂ hwrote.2 h)

/-- The code of a chunk, and the padding up to the size of its slot. -/
def emitted (program : Program) (assigned : Nat → Option Slot) (c : Nat) : List UInt8 :=
  (program.chunk c).code ++
    List.replicate (((assigned c).map fun slot => slot.size.toNat).getD 0 - (program.chunk c).size.toNat) 0x90

theorem wrote_instructions (hs : s.buffer.length ≤ maxSize)
    (h : (program.chunk c).instructions.foldlM append s = .ok s') : Wrote s (program.chunk c).code s' := by
  have hwrote : Wrote s ((program.chunk c).instructions.flatMap id) s' :=
    wrote_foldlM (fun s₁ s₂ bytes _ _ hx => wrote_append hx) hs h
  rwa [List.flatMap_id] at hwrote

theorem wrote_padding (hs : s.buffer.length ≤ maxSize) (h : addPaddingBytes program s c = .ok s') :
    Wrote s (List.replicate (((s.assigned c).map fun slot => slot.size.toNat).getD 0 - (program.chunk c).size.toNat) 0x90)
      s' := by
  unfold addPaddingBytes at h
  split at h
  · cases h
  · rename_i slot hslot
    rw [hslot]
    split at h
    case isTrue hlt =>
      rw [UInt64.toNat_sub_of_le _ _ (UInt64.le_of_lt hlt)] at h
      exact wrote_append h
    case isFalse hle =>
      cases h
      rw [gt_iff_lt, UInt64.not_lt, UInt64.le_iff_toNat_le] at hle
      simp only [Option.map_some, Option.getD_some, Nat.sub_eq_zero_of_le hle, List.replicate_zero]
      exact wrote_nil hs

theorem wrote_copyFunction (hs : s.buffer.length ≤ maxSize) (h : copyFunction program s c = .ok s') :
    Wrote s (emitted program s.assigned c) s' := by
  obtain ⟨s₁, h₁, h⟩ := bind_eq_ok h
  have hcode := wrote_instructions hs h₁
  have hpad := wrote_padding hcode.2 h
  rw [show s₁.assigned = s.assigned by rw [hcode.1]] at hpad
  exact hcode.trans hpad

/-- The instructions of a trampoline leave nothing to fill. -/
theorem wrote_copyTrampoline (hs : s.buffer.length ≤ maxSize) (h : copyTrampoline program s c = .ok s') :
    Wrote s (emitted program s.assigned c) s' := by
  obtain ⟨s₁, h₁, h⟩ := bind_eq_ok h
  have hcode := wrote_instructions hs h₁
  have hfull : UInt64.ofNat s₁.buffer.length = UInt64.ofNat s.buffer.length + (program.chunk c).size := by
    rw [hcode.1, List.length_append, UInt64.ofNat_add, AssignableChunk.code, ← (program.chunk c).size_eq,
      UInt64.ofNat_toNat]
  obtain ⟨s₂, h₂, h⟩ := bind_eq_ok h
  have hfill : Wrote s₁ [] s₂ := by
    unfold fillTrampoline at h₂
    dsimp only at h₂
    rw [hfull, if_neg (by simp)] at h₂
    simpa using wrote_append h₂
  have hpad := wrote_padding hfill.2 h
  rw [show s₂.assigned = s.assigned by rw [hfill.1, hcode.1]] at hpad
  unfold emitted
  simpa using hcode.trans (hfill.trans hpad)

theorem getAddress_congr {s₁ : GeneratorState} (h : s₁.assigned = s.assigned) :
    getAddress program s₁ = getAddress program s := by
  funext c
  unfold getAddress
  rw [h]

/-- The chunks in the order in which `generateCode` writes them. -/
def writeOrder (std : StdSort) (program : Program) (s : GeneratorState) : List Nat :=
  program.modules.flatMap fun m => pickFunctionOrder std program s m ++ m.plts

theorem wrote_generateCode {std : StdSort} (hs : s.buffer.length ≤ maxSize) (h : generateCode std program s = .ok s') :
    Wrote s ((writeOrder std program s).flatMap (emitted program s.assigned)) s' := by
  unfold writeOrder
  rw [List.flatMap_assoc]
  refine wrote_foldlM (fun s₁ s₂ m hsame hs₁ hm => ?_) hs h
  obtain ⟨s₃, h₃, hm⟩ := bind_eq_ok hm
  have hfunctions := wrote_foldlM (fun t₁ t₂ c hsame' ht hc => by
    have hwrote := wrote_copyFunction ht hc
    rwa [hsame', hsame] at hwrote) hs₁ h₃
  have hsame₃ : s₃.assigned = s.assigned := by rw [hfunctions.1]; exact hsame
  rw [show pickFunctionOrder std program s₁ m = pickFunctionOrder std program s m by
    unfold pickFunctionOrder; rw [getAddress_congr hsame]] at hfunctions
  rw [List.flatMap_append]
  refine hfunctions.trans ?_
  unfold Module.plts
  cases hplts : m.pltList with
  | none =>
    rw [hplts] at hm
    cases hm
    exact wrote_nil hfunctions.2
  | some plts =>
    rw [hplts] at hm
    exact wrote_foldlM (fun t₁ t₂ c hsame' ht hc => by
      have hwrote := wrote_copyTrampoline ht hc
      rwa [hsame', hsame₃] at hwrote) hfunctions.2 hm

/-! ## What the addresses are -/

/-- The size of the slot of a chunk. -/
def slotSize (program : Program) (c : Nat) : Nat := roundUp 2 (program.chunk c).size.toNat

def addressOf (assigned : Nat → Option Slot) (c : Nat) : Nat :=
  ((assigned c).map fun slot => slot.address.toNat).getD 0

/-- The chunks of a list got slots one behind the other. -/
structure Laid (program : Program) (s : GeneratorState) (l : List Nat) (s' : GeneratorState) : Prop where
  consecutive : Consecutive (addressOf s'.assigned) (slotSize program) s.alloc.watermark.toNat l
  watermark : s'.alloc.watermark.toNat = s.alloc.watermark.toNat + (l.map (slotSize program)).sum
  slots : ∀ c ∈ l, ∃ slot, s'.assigned c = some slot ∧ slot.size.toNat = slotSize program c
  frame : ∀ c ∉ l, s'.assigned c = s.assigned c

/-- The allocator is in its region, which is below 2^63. -/
def LowRegion (s : GeneratorState) : Prop :=
  InRegion bufferAllocator s.alloc ∧ s.alloc.backing.bound < 2 ^ 63

theorem laid_nil : Laid program s [] s := ⟨trivial, rfl, fun _ h => (nomatch h), fun _ _ => rfl⟩

theorem Laid.append {s₁ : GeneratorState} {l l' : List Nat} (h : Laid program s l s₁) (h' : Laid program s₁ l' s')
    (hdisjoint : ∀ c ∈ l, c ∉ l') : Laid program s (l ++ l') s' := by
  refine ⟨consecutive_append.2 ⟨?_, ?_⟩, ?_, fun c hc => ?_, fun c hc => ?_⟩
  · refine (consecutive_congr fun c hc => ?_).1 h.consecutive
    unfold addressOf
    rw [h'.frame c (hdisjoint c hc)]
    exact ⟨rfl, rfl⟩
  · rw [← h.watermark]
    exact h'.consecutive
  · rw [h'.watermark, h.watermark, List.map_append, List.sum_append, Nat.add_assoc]
  · by_cases hc' : c ∈ l'
    · exact h'.slots c hc'
    · rw [h'.frame c hc']
      exact h.slots c ((List.mem_append.1 hc).resolve_right hc')
  · rw [List.mem_append, not_or] at hc
    rw [h'.frame c hc.2, h.frame c hc.1]

theorem laid_assignAddress (hs : LowRegion s) (hsize : (program.chunk c).size.toNat < 2 ^ 63)
    (h : assignAddress program s c = .ok s') : Laid program s [c] s' ∧ LowRegion s' := by
  have hround : roundUp bufferAllocator.alignment (program.chunk c).size.toNat ≤ 2 ^ 63 :=
    (roundUp_le_iff (m := 2 ^ 63) (alignment_pos bufferAllocator) (by decide)).2 hsize.le
  have hbelow := hs.1.below
  have hlow := hs.2
  have hword : s.alloc.watermark.toNat + roundUp bufferAllocator.alignment (program.chunk c).size.toNat < 2 ^ 64 := by
    omega
  obtain ⟨hregion, hbacking, -⟩ := inRegion_allocate hs.1 hword
  unfold assignAddress at h
  rcases allocate_cases hword with ⟨-, slot, watermark, hrun, haddress, hslot, hmark⟩ | ⟨-, hrun⟩
  · rw [hrun] at h hregion hbacking
    cases h
    refine ⟨⟨⟨?_, trivial⟩, hmark, fun d hd => ?_, fun d hd => ?_⟩, hregion, hs.2⟩
    · simp only [addressOf, Function.update_self, Option.map_some, Option.getD_some, haddress]
    · rw [List.mem_singleton.1 hd]
      exact ⟨slot, Function.update_self _ _ _, hslot⟩
    · exact Function.update_of_ne (fun hdc => hd (List.mem_singleton.2 hdc)) _ _
  · rw [hrun] at h
    cases h

theorem laid_assignAll {l : List Nat} (hs : LowRegion s) (hsize : ∀ c ∈ l, (program.chunk c).size.toNat < 2 ^ 63)
    (hnodup : l.Nodup) (h : l.foldlM (assignAddress program) s = .ok s') : Laid program s l s' ∧ LowRegion s' := by
  induction l generalizing s with
  | nil =>
    cases h
    exact ⟨laid_nil, hs⟩
  | cons c l ih =>
    rw [List.foldlM_cons] at h
    obtain ⟨s₁, h₁, h⟩ := bind_eq_ok h
    rw [List.nodup_cons] at hnodup
    obtain ⟨hlaid, hs₁⟩ := laid_assignAddress hs (hsize c List.mem_cons_self) h₁
    obtain ⟨hlaid', hs'⟩ := ih hs₁ (fun d hd => hsize d (List.mem_cons_of_mem _ hd)) hnodup.2 h
    refine ⟨hlaid.append hlaid' fun d hd => ?_, hs'⟩
    rw [List.mem_singleton.1 hd]
    exact hnodup.1

theorem laid_assignModule {std : StdSort} {m : Module} (hs : LowRegion s)
    (hsize : ∀ c ∈ m.functions ++ m.plts, (program.chunk c).size.toNat < 2 ^ 63)
    (hnodup : (m.functions ++ m.plts).Nodup) (h : assignModule std program s m = .ok s') :
    ∃ order : List Nat, order.Perm m.functions ∧ Laid program s (order ++ m.plts) s' ∧ LowRegion s' := by
  obtain ⟨s₁, h₁, h⟩ := bind_eq_ok h
  have hperm : (pickFunctionOrder std program s m).Perm m.functions := std.perm _ _
  obtain ⟨hfunctions, hplts, hdisjoint⟩ := List.nodup_append.1 hnodup
  obtain ⟨hlaid, hs₁⟩ := laid_assignAll hs
    (fun c hc => hsize c (List.mem_append_left _ (hperm.mem_iff.1 hc))) (hperm.nodup_iff.2 hfunctions) h₁
  have hrest : m.plts.foldlM (assignAddress program) s₁ = .ok s' := by
    unfold Module.plts
    cases hm : m.pltList with
    | none =>
      rw [hm] at h
      exact h
    | some plts =>
      rw [hm] at h
      exact h
  obtain ⟨hlaid', hs'⟩ := laid_assignAll hs₁ (fun c hc => hsize c (List.mem_append_right _ hc)) hplts hrest
  exact ⟨_, hperm, hlaid.append hlaid' fun c hc hc' => hdisjoint c (hperm.mem_iff.1 hc) c hc' rfl, hs'⟩

/-- What one module puts into an order of all chunks. -/
def IsBlock (m : Module) (block : List Nat) : Prop := ∃ order : List Nat, order.Perm m.functions ∧ block = order ++ m.plts

theorem IsBlock.perm {m : Module} {block : List Nat} (h : IsBlock m block) : block.Perm (m.functions ++ m.plts) := by
  obtain ⟨order, hperm, rfl⟩ := h
  exact hperm.append_right _

theorem perm_of_blocks {modules : List Module} {blocks : List (List Nat)} (h : List.Forall₂ IsBlock modules blocks) :
    blocks.flatten.Perm (modules.flatMap fun m => m.functions ++ m.plts) := by
  induction h with
  | nil => exact .nil
  | cons hblock _ ih => exact hblock.perm.append ih

theorem laid_assignModules {std : StdSort} {modules : List Module} (hs : LowRegion s)
    (hsize : ∀ c ∈ modules.flatMap fun m => m.functions ++ m.plts, (program.chunk c).size.toNat < 2 ^ 63)
    (hnodup : (modules.flatMap fun m => m.functions ++ m.plts).Nodup)
    (h : modules.foldlM (assignModule std program) s = .ok s') :
    ∃ blocks, List.Forall₂ IsBlock modules blocks ∧ Laid program s blocks.flatten s' := by
  induction modules generalizing s with
  | nil =>
    cases h
    exact ⟨[], .nil, laid_nil⟩
  | cons m modules ih =>
    rw [List.foldlM_cons] at h
    obtain ⟨s₁, h₁, h⟩ := bind_eq_ok h
    rw [List.flatMap_cons] at hsize hnodup
    obtain ⟨hfirst, hrest, hdisjoint⟩ := List.nodup_append.1 hnodup
    obtain ⟨order, hperm, hlaid, hs₁⟩ :=
      laid_assignModule hs (fun c hc => hsize c (List.mem_append_left _ hc)) hfirst h₁
    obtain ⟨blocks, hblocks, hlaid'⟩ := ih hs₁ (fun c hc => hsize c (List.mem_append_right _ hc)) hrest h
    have hblock : IsBlock m (order ++ m.plts) := ⟨order, hperm, rfl⟩
    refine ⟨_, .cons hblock hblocks, hlaid.append hlaid' fun c hc hc' => ?_⟩
    exact hdisjoint c (hblock.perm.mem_iff.1 hc) c ((perm_of_blocks hblocks).mem_iff.1 hc') rfl

/-! ## Both orders -/

/-- Written by address, the code of the modules comes out as laid out. -/
theorem flatMap_writeOrder {std : StdSort} {emit : Nat → List UInt8} {start : Nat} {modules : List Module}
    {blocks : List (List Nat)} (hblocks : List.Forall₂ IsBlock modules blocks)
    (hlaid : Consecutive (fun c => (getAddress program s c).toNat) (fun c => (emit c).length) start blocks.flatten) :
    (modules.flatMap fun m => pickFunctionOrder std program s m ++ m.plts).flatMap emit = blocks.flatten.flatMap emit := by
  induction hblocks generalizing start with
  | nil => rfl
  | cons hblock _ ih =>
    obtain ⟨order, hperm, rfl⟩ := hblock
    rw [List.flatten_cons, List.append_assoc, consecutive_append, consecutive_append] at hlaid
    obtain ⟨horder, -, hrest⟩ := hlaid
    rw [List.flatMap_cons, List.flatten_cons, List.flatMap_append, List.flatMap_append, List.flatMap_append,
      List.flatMap_append, ih hrest]
    congr 2
    exact flatMap_eq_of_sorted horder ((std.perm _ _).trans hperm.symm) (std.sorted _ _)

/-! ## The buffer -/

theorem buffer_foldlM {α : Type} {step : GeneratorState → α → Except Failure GeneratorState}
    (hstep : ∀ s x s', step s x = .ok s' → s'.buffer = s.buffer) {l : List α} (h : l.foldlM step s = .ok s') :
    s'.buffer = s.buffer := by
  induction l generalizing s with
  | nil =>
    cases h
    rfl
  | cons x l ih =>
    rw [List.foldlM_cons] at h
    obtain ⟨s₁, h₁, h⟩ := bind_eq_ok h
    exact (ih h).trans (hstep s x s₁ h₁)

theorem buffer_assignAddress (h : assignAddress program s c = .ok s') : s'.buffer = s.buffer := by
  unfold assignAddress at h
  split at h <;> cases h
  rfl

theorem buffer_assignAddresses {std : StdSort} (h : assignAddresses std program s = .ok s') : s'.buffer = s.buffer := by
  refine buffer_foldlM (fun s m s' hm => ?_) h
  obtain ⟨s₁, h₁, hm⟩ := bind_eq_ok hm
  have hfunctions := buffer_foldlM (fun _ _ _ => buffer_assignAddress) h₁
  cases hplts : m.pltList with
  | none =>
    rw [hplts] at hm
    cases hm
    exact hfunctions
  | some plts =>
    rw [hplts] at hm
    exact (buffer_foldlM (fun _ _ _ => buffer_assignAddress) hm).trans hfunctions

theorem length_code (program : Program) (c : Nat) : (program.chunk c).code.length = (program.chunk c).size.toNat :=
  (program.chunk c).size_eq.symm

theorem length_emitted {slot : Slot} {assigned : Nat → Option Slot} (hslot : assigned c = some slot)
    (hsize : slot.size.toNat = slotSize program c) : (emitted program assigned c).length = slotSize program c := by
  have hle : (program.chunk c).size.toNat ≤ slotSize program c := le_roundUp (by decide)
  unfold emitted
  rw [List.length_append, length_code, List.length_replicate, hslot]
  simp only [Option.map_some, Option.getD_some, hsize]
  omega

/-- Pieces that were laid out and are written in that order are placed. -/
theorem placed_of_laid {base : UInt64} {l : List Nat} (hperm : l.Perm program.chunks)
    (hslots : ∀ c ∈ l, ∃ slot, s.assigned c = some slot ∧ slot.size.toNat = slotSize program c)
    (hlaid : Consecutive (addressOf s.assigned) (fun c => (emitted program s.assigned c).length) base.toNat l)
    (hbuffer : s.buffer = l.flatMap (emitted program s.assigned)) : Placed program base s := by
  have haddress : ∀ {c slot}, s.assigned c = some slot → addressOf s.assigned c = slot.address.toNat := by
    intro c slot hslot
    unfold addressOf
    rw [hslot]
    rfl
  have hend : ∀ {c slot}, s.assigned c = some slot →
      slot.address.toNat + (program.chunk c).size.toNat ≤ addressOf s.assigned c + (emitted program s.assigned c).length := by
    intro c slot hslot
    rw [haddress hslot, emitted, List.length_append, length_code]
    omega
  refine ⟨fun c hc => ?_, fun c hc d hd hcd slot slot' n hslot hslot' => ?_, fun n hn hgap => ?_⟩
  · have hcl := hperm.mem_iff.2 hc
    obtain ⟨slot, hslot, -⟩ := hslots c hcl
    have hpiece := drop_take_of_consecutive hlaid hcl
    rw [← hbuffer, haddress hslot] at hpiece
    refine ⟨slot, hslot, haddress hslot ▸ start_le_of_consecutive hlaid hcl, ?_⟩
    have hcode : (program.chunk c).size.toNat ≤ (emitted program s.assigned c).length := by
      rw [emitted, List.length_append, length_code]
      omega
    rw [← Nat.min_eq_left hcode, ← List.take_take, hpiece, emitted, ← length_code, List.take_left]
  · -- one of the two was laid out first
    rintro ⟨hn₁, hn₂, hn₃, hn₄⟩
    have hc₁ := hend hslot
    have hd₁ := hend hslot'
    have hc₂ := haddress hslot
    have hd₂ := haddress hslot'
    rcases apart_of_consecutive hlaid (hperm.mem_iff.2 hc) (hperm.mem_iff.2 hd) hcd with hle | hle
    · omega
    · omega
  · rw [hbuffer] at hn ⊢
    obtain ⟨c, hc, hle, hlt, hbyte⟩ := exists_piece_of_consecutive hlaid hn
    obtain ⟨slot, hslot, -⟩ := hslots c hc
    have hbehind := hgap c (hperm.mem_iff.1 hc) slot hslot
    rw [haddress hslot] at hle hlt hbyte
    -- behind the code of the chunk there is its padding
    rw [emitted, List.length_append, length_code, List.length_replicate] at hlt
    rw [hbyte, emitted, List.getElem?_append_right (by rw [length_code]; omega), length_code,
      List.getElem?_replicate_of_lt (by omega)]

/-- After `assignAddresses` and `generateCode` the code of every function and trampoline stands
in the buffer at its address, and there is only padding between them. -/
theorem generated_code_placed (std : StdSort) (program : Program) (backing : MemoryBufferBacking)
    (assigned : Nat → Option Slot) (s₁ s₂ : GeneratorState)
    (hassign : assignAddresses std program (.new backing.toSandboxBacking assigned) = .ok s₁)
    (hgenerate : generateCode std program s₁ = .ok s₂) : Placed program backing.base s₂ := by
  have hempty : s₁.buffer = [] := buffer_assignAddresses hassign
  obtain ⟨hs₂, hlength⟩ := wrote_generateCode (by rw [hempty]; exact Nat.zero_le _) hgenerate
  have hbuffer : s₂.buffer = (writeOrder std program s₁).flatMap (emitted program s₁.assigned) := by
    rw [hs₂, hempty, List.nil_append]
  -- what fits into the buffer is too small for the sums of the allocator to wrap
  have hsize : ∀ c ∈ program.chunks, (program.chunk c).size.toNat < 2 ^ 63 := fun c hc => by
    have hmem : c ∈ writeOrder std program s₁ := by
      obtain ⟨m, hm, hc⟩ := List.mem_flatMap.1 hc
      refine List.mem_flatMap.2 ⟨m, hm, ?_⟩
      exact ((std.perm _ m.functions).append_right m.plts).mem_iff.2 hc
    have hle : (emitted program s₁.assigned c).length ≤ s₂.buffer.length := by
      rw [hbuffer, List.flatMap_def]
      exact (List.sublist_flatten_of_mem (List.mem_map_of_mem hmem)).length_le
    rw [emitted, List.length_append, length_code] at hle
    unfold maxSize at hlength
    omega
  have hlow : LowRegion (.new backing.toSandboxBacking assigned) := ⟨inRegion_new _ _, backing.low⟩
  obtain ⟨blocks, hblocks, hlaid⟩ := laid_assignModules hlow hsize program.nodup hassign
  have hconsecutive : Consecutive (addressOf s₁.assigned) (fun c => (emitted program s₁.assigned c).length)
      backing.base.toNat blocks.flatten := by
    refine (consecutive_congr fun c hc => ⟨rfl, ?_⟩).1 hlaid.consecutive
    obtain ⟨slot, hslot, hsize⟩ := hlaid.slots c hc
    exact (length_emitted hslot hsize).symm
  have hsame : s₂.assigned = s₁.assigned := by rw [hs₂]
  refine placed_of_laid (perm_of_blocks hblocks) ?_ ?_ ?_
  · rw [hsame]
    exact hlaid.slots
  · rw [hsame]
    exact hconsecutive
  · rw [hsame, hbuffer]
    refine flatMap_writeOrder hblocks ((consecutive_congr fun c hc => ?_).1 hconsecutive)
    obtain ⟨slot, hslot, -⟩ := hlaid.slots c hc
    unfold addressOf getAddress
    rw [hslot]
    exact ⟨rfl, rfl⟩

def insertionStdSort : StdSort where
  sort key l := l.insertionSort fun a b => (key a).toNat ≤ (key b).toNat
  perm _ l := List.perm_insertionSort _ l
  sorted key l := List.pairwise_insertionSort (fun a b => (key a).toNat ≤ (key b).toNat) l

/-- Two functions in the wrong order and a trampoline. -/
theorem length_pushRet : (2 : UInt64).toNat = ([[0x55], [0xc3]] : List (List UInt8)).flatten.length := rfl

def sampleProgram : Program where
  chunk c :=
    if c = 0 then ⟨[[0x55], [0xc3]], 2, 0x2000, length_pushRet⟩
    else if c = 1 then ⟨[[0xc3]], 1, 0x1000, rfl⟩
    else ⟨[[0xff, 0x25, 0, 0, 0, 0]], 6, 0x3000, rfl⟩
  modules := [⟨[0, 1], some [2]⟩]
  nodup := by decide

def sampleBufferBacking : MemoryBufferBacking := ⟨sampleBacking, by decide⟩

theorem sampleProgram_placed : ∃ s₁ s₂,
    assignAddresses insertionStdSort sampleProgram (.new sampleBufferBacking.toSandboxBacking fun _ => none) = .ok s₁ ∧
    generateCode insertionStdSort sampleProgram s₁ = .ok s₂ ∧ Placed sampleProgram sampleBufferBacking.base s₂ := by
  have hruns : ∃ s₁ s₂,
      assignAddresses insertionStdSort sampleProgram (.new sampleBufferBacking.toSandboxBacking fun _ => none) = .ok s₁ ∧
      generateCode insertionStdSort sampleProgram s₁ = .ok s₂ := ⟨_, _, rfl, rfl⟩
  obtain ⟨s₁, s₂, hassign, hgenerate⟩ := hruns
  exact ⟨s₁, s₂, hassign, hgenerate, generated_code_placed _ _ _ _ _ _ hassign hgenerate⟩

end Egalito.Transform
