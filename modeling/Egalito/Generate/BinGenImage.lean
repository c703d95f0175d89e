import Egalito.Generate.BinGen
import Egalito.Transform.GeneratorTheorems
import Mathlib
/-!
# The image and its layout

When the image that `writeOut` produces is the one that `reassignFunctionAddress`
and `interleaveData` laid out. The two go over the chunks in one order where
functions have code, sections have an alignment, and the children of a region
are in the order of their addresses.
-/

open Egalito.Lib Egalito.Transform

namespace Egalito.Generate

/-! ## Sorting -/

theorem StdSort.eq_of_ordered {std : StdSort} {key : Nat → UInt64} {l l' : List Nat} (hperm : l'.Perm l)
    (h : l'.Pairwise fun a b => (key a).toNat < (key b).toNat) : std.sort key l = l' := by
  have hp : (std.sort key l).Perm l' := (std.perm key l).trans hperm.symm
  have hnodup : ((std.sort key l).map fun a => (key a).toNat).Nodup :=
    ((hp.map _).nodup_iff).2 (List.pairwise_map.2 (h.imp fun hlt => hlt.ne))
  have hstrict : (std.sort key l).Pairwise fun a b => (key a).toNat < (key b).toNat :=
    ((std.sorted key l).and (List.pairwise_map.1 hnodup)).imp fun hab => lt_of_le_of_ne hab.1 hab.2
  exact eq_of_perm_of_ordered (fun a => (key a).toNat) hp hstrict h

namespace BinProgram

/-! ## What the image has to be -/

/-- The functions and the sections that are written. -/
def written (program : BinProgram) : List BinChunk :=
  program.modules.flatMap fun m =>
    m.functions.map .function ++ m.regions.flatMap fun region => (program.dataSectionList region).map .section

/-- The bytes of each chunk stand at its address, the chunks are apart, and all else is zero. -/
structure Agrees (program : BinProgram) (at_ : Addresses) (start : Nat) (image : List UInt8) : Prop where
  placed : ∀ x ∈ program.written, start ≤ (at_ x).toNat ∧
    (image.drop ((at_ x).toNat - start)).take (program.bytes x).length = program.bytes x
  apart : ∀ x ∈ program.written, ∀ y ∈ program.written, x ≠ y →
    (at_ x).toNat + (program.bytes x).length ≤ (at_ y).toNat ∨
      (at_ y).toNat + (program.bytes y).length ≤ (at_ x).toNat
  zeros : ∀ n < image.length, (∃ x ∈ program.written, (at_ x).toNat ≤ start + n ∧
    start + n < (at_ x).toNat + (program.bytes x).length) ∨ image[n]? = some 0

variable (std : StdSort) (program : BinProgram)

/-- The sections of one kind, region by region. -/
def sections (writable : Bool) (m : BinModule) : List Nat :=
  (m.regions.filter fun region => region.writable = writable).flatMap program.dataSectionList

/-! ## The layout without wrapping around -/

def sectionStep (i : Nat) : Nat × Nat :=
  ((program.dataSection i).alignment.toNat, (program.dataSection i).size.toNat)

def sectionSteps (writable : Bool) (m : BinModule) : List (Nat × Nat) :=
  (program.sections writable m).map program.sectionStep

/-- The alignments and sizes for one kind of data. -/
def dataSteps (writable : Bool) (align : Option UInt64) : List (Nat × Nat) :=
  ((pageAlign align).toNat, 0) :: (program.sectionSteps writable program.main ++
    program.addon.elim [] fun addon => (8, 0) :: program.sectionSteps writable addon)

/-- A function keeps the largest alignment that its address has. -/
def functionStep (i : Nat) : Nat × Nat :=
  (((program.function i).address &&& -(program.function i).address).toNat, (program.function i).size.toNat)

def addonFunctions : List Nat := program.addon.elim [] BinModule.functions

/-- Behind the first function of the main module. -/
def imageSteps (functions : List Nat) : List (Nat × Nat) :=
  functions.map program.functionStep ++ (program.addonFunctions.map fun i => (1, (program.function i).size.toNat)) ++
    (program.dataSteps false program.rodataAlign ++ program.dataSteps true program.dataAlign)

/-- The end of the data, with the first function at its old address. -/
def imageEnd : Nat :=
  match makeSortedFunctionList std program.original program.main with
  | [] => 0
  | i :: functions => layoutEnd ((program.function i).address.toNat + (program.function i).size.toNat)
      (program.imageSteps functions)

/-- The programs for which the output follows the layout. -/
structure Orderly (start : UInt64) : Prop where
  addon : ∀ m, program.addon = some m → m.functions ≠ []
  code : ∀ m ∈ program.modules, ∀ i ∈ m.functions, (program.function i).size ≠ 0
  zero : ∀ i ∈ program.main.functions, ∀ j ∈ program.main.functions,
    (program.function i).address = 0 → (program.function j).address = 0 → i = j
  aligned : ∀ m ∈ program.modules, ∀ region ∈ m.regions, ∀ i ∈ program.dataSectionList region,
    (program.dataSection i).alignment ≠ 0
  ordered : ∀ m ∈ program.modules, ∀ region ∈ m.regions, (program.dataSectionList region).Pairwise fun i j =>
    (program.dataSection i).address < (program.dataSection j).address
  fits : program.imageEnd std < 2 ^ 64 ∧ program.imageEnd std ≤ start.toNat + maxFile

/-! ## Rounding -/

theorem toNat_roundUpBy {x y : UInt64} (hy : ∃ k, y.toNat = 2 ^ k) (hfit : roundUp y.toNat x.toNat < 2 ^ 64) :
    (roundUpBy x y).toNat = roundUp y.toNat x.toNat := by
  obtain ⟨k, hk⟩ := hy
  rw [roundUpBy, toNat_align hk, Nat.mod_eq_of_lt hfit]

theorem roundUpBy_one (x : UInt64) : roundUpBy x 1 = x := by
  apply UInt64.toNat.inj
  rw [toNat_roundUpBy ⟨0, rfl⟩] <;> simp [x.toNat_lt]

/-- The first function stays where it is. -/
theorem roundUpBy_self (x : UInt64) : roundUpBy x (x &&& -x) = x := by
  by_cases hx : x = 0
  · subst hx
    rfl
  · obtain ⟨k, hk, hdvd⟩ := toNat_and_neg hx
    have hround : roundUp (x &&& -x).toNat x.toNat = x.toNat := by
      have hpos : 0 < (x &&& -x).toNat := hk ▸ Nat.two_pow_pos k
      exact le_antisymm ((roundUp_le_iff hpos (hk ▸ hdvd)).2 le_rfl) (le_roundUp hpos)
    apply UInt64.toNat.inj
    rw [toNat_roundUpBy ⟨k, hk⟩ (by rw [hround]; exact x.toNat_lt), hround]

theorem pageAlign_power {align : Option UInt64} (h : ∀ a, align = some a → a = 0 ∨ ∃ k, a.toNat = 2 ^ k) :
    ∃ k, (pageAlign align).toNat = 2 ^ k := by
  unfold pageAlign
  cases align with
  | none => exact ⟨12, rfl⟩
  | some a =>
    dsimp only
    split
    · case isTrue hlt =>
      rcases h a rfl with rfl | hk
      · exact absurd hlt (by decide)
      · exact hk
    · exact ⟨12, rfl⟩

/-! ## Placing chunks -/

/-- The chunks that have been placed, in order, from the start on. -/
structure Laid (program : BinProgram) (start : Nat) (l : List BinChunk) (r : Addresses × UInt64) : Prop where
  spaced : Spaced (fun x => (r.1 x).toNat) (fun x => (program.size x).toNat) start l
  fits : Lib.endOf (fun x => (r.1 x).toNat) (fun x => (program.size x).toNat) start l ≤ r.2.toNat
  kept : ∀ x, x ∉ l → r.1 x = program.original x

variable {std : StdSort} {program : BinProgram} {start : Nat} {l : List BinChunk} {r : Addresses × UInt64}

theorem laid_setPosition {x : BinChunk} {address : UInt64} (h : Laid program start l r) (hx : x ∉ l)
    (hle : r.2.toNat ≤ address.toNat) (hfit : address.toNat + (program.size x).toNat < 2 ^ 64) :
    Laid program start (l ++ [x]) (program.setPosition r x address) ∧
      (program.setPosition r x address).2.toNat = address.toNat + (program.size x).toNat := by
  have hend : (program.setPosition r x address).2.toNat = address.toNat + (program.size x).toNat := by
    rw [setPosition, UInt64.toNat_add, Nat.mod_eq_of_lt hfit]
  have hsame : ∀ y ∈ l, (r.1 y).toNat = (Function.update r.1 x address y).toNat ∧
      (program.size y).toNat = (program.size y).toNat := by
    intro y hy
    have hne : y ≠ x := fun heq => hx (heq ▸ hy)
    rw [Function.update_of_ne hne]
    exact ⟨rfl, rfl⟩
  obtain ⟨hspaced, hendOf⟩ := spaced_congr start hsame
  refine ⟨⟨?_, ?_, fun y hy => ?_⟩, hend⟩
  · refine spaced_append.2 ⟨hspaced.1 h.spaced, ?_, trivial⟩
    simp only [setPosition, Function.update_self, ← hendOf]
    exact h.fits.trans hle
  · rw [endOf_append, Lib.endOf, Lib.endOf, hend]
    simp [setPosition]
  · have hne : y ≠ x := fun heq => hy (heq ▸ by simp)
    have hold : (program.setPosition r x address).1 y = r.1 y := Function.update_of_ne hne _ _
    rw [hold]
    exact h.kept y fun hyl => hy (List.mem_append_left _ hyl)

/-- A family of chunks that are placed one behind the other, each at its alignment. -/
theorem laid_foldl (f : Addresses × UInt64 → Nat → Addresses × UInt64) (chunk : Nat → BinChunk) (align : Nat → UInt64)
    {xs : List Nat}
    (hf : ∀ r, ∀ i ∈ xs, r.1 (chunk i) = program.original (chunk i) →
      f r i = program.setPosition r (chunk i) (roundUpBy r.2 (align i)))
    (hpower : ∀ i ∈ xs, ∃ k, (align i).toNat = 2 ^ k) (hnodup : (l ++ xs.map chunk).Nodup)
    (hfit : layoutEnd r.2.toNat (xs.map fun i => ((align i).toNat, (program.size (chunk i)).toNat)) < 2 ^ 64)
    (h : Laid program start l r) :
    Laid program start (l ++ xs.map chunk) (xs.foldl f r) ∧
      (xs.foldl f r).2.toNat = layoutEnd r.2.toNat (xs.map fun i => ((align i).toNat, (program.size (chunk i)).toNat)) := by
  induction xs generalizing l r with
  | nil => simpa [layoutEnd] using h
  | cons i xs ih =>
    rw [List.forall_mem_cons] at hpower
    have hpos : ∀ step ∈ xs.map fun i => ((align i).toNat, (program.size (chunk i)).toNat), 0 < step.1 := by
      intro step hstep
      obtain ⟨j, hj, rfl⟩ := List.mem_map.1 hstep
      obtain ⟨k, hk⟩ := hpower.2 j hj
      exact hk ▸ Nat.two_pow_pos k
    obtain ⟨k, hk⟩ := hpower.1
    have hround : (r.2.toNat ≤ roundUp (align i).toNat r.2.toNat) := le_roundUp (hk ▸ Nat.two_pow_pos k)
    rw [List.map_cons, layoutEnd, List.foldl_cons, ← layoutEnd] at hfit
    have hnext : roundUp (align i).toNat r.2.toNat + (program.size (chunk i)).toNat < 2 ^ 64 :=
      (le_layoutEnd hpos).trans_lt hfit
    have haddress := toNat_roundUpBy hpower.1 (x := r.2) (by omega)
    have hsplit : l ++ (i :: xs).map chunk = (l ++ [chunk i]) ++ xs.map chunk := by simp
    rw [hsplit] at hnodup ⊢
    have hnew : chunk i ∉ l := fun hmem => by
      have := (List.nodup_append.1 (List.nodup_append.1 hnodup).1).2.2 _ hmem _ (List.mem_singleton.2 rfl)
      exact this rfl
    obtain ⟨hlaid, hend⟩ := laid_setPosition h hnew (haddress ▸ hround) (by rw [haddress]; exact hnext)
    rw [haddress] at hend
    rw [List.foldl_cons, hf r i List.mem_cons_self (h.kept _ hnew), List.map_cons, layoutEnd, List.foldl_cons, ← layoutEnd,
      ← hend]
    exact ih (fun r j hj => hf r j (List.mem_cons_of_mem _ hj)) hpower.2 hnodup (by rw [hend]; exact hfit) hlaid

theorem laid_bump {align : UInt64} (hpower : ∃ k, align.toNat = 2 ^ k) (hfit : roundUp align.toNat r.2.toNat < 2 ^ 64)
    (h : Laid program start l r) :
    Laid program start l (r.1, roundUpBy r.2 align) ∧
      (roundUpBy r.2 align).toNat = roundUp align.toNat r.2.toNat := by
  have haddress := toNat_roundUpBy hpower hfit
  refine ⟨⟨h.spaced, ?_, h.kept⟩, haddress⟩
  obtain ⟨k, hk⟩ := hpower
  rw [haddress]
  exact h.fits.trans (le_roundUp (hk ▸ Nat.two_pow_pos k))

/-! ## Data -/

/-- Regions are laid out in the order of their children, when that is the order of the addresses. -/
theorem laid_regions (std : StdSort) {writable : Bool} {regions : List BinRegion}
    (haligned : ∀ region ∈ regions, ∀ i ∈ program.dataSectionList region, (program.dataSection i).alignment ≠ 0)
    (hordered : ∀ region ∈ regions, (program.dataSectionList region).Pairwise fun i j =>
      (program.dataSection i).address < (program.dataSection j).address)
    {secs : List Nat} (hsecs : (regions.filter fun region => region.writable = writable).flatMap program.dataSectionList = secs)
    (hnodup : (l ++ secs.map BinChunk.section).Nodup) (hfit : layoutEnd r.2.toNat (secs.map program.sectionStep) < 2 ^ 64)
    (h : Laid program start l r) :
    Laid program start (l ++ secs.map BinChunk.section) (regions.foldl (program.remapRegion std writable) r) ∧
      (regions.foldl (program.remapRegion std writable) r).2.toNat =
        layoutEnd r.2.toNat (secs.map program.sectionStep) := by
  induction regions generalizing l r secs with
  | nil =>
    subst hsecs
    simpa [layoutEnd] using h
  | cons region regions ih =>
    rw [List.forall_mem_cons] at haligned hordered
    rw [List.foldl_cons]
    by_cases hw : region.writable = writable
    · obtain ⟨rest, rfl⟩ : ∃ rest, secs = program.dataSectionList region ++ rest := by
        rw [List.filter_cons_of_pos (by simpa using hw), List.flatMap_cons] at hsecs
        exact ⟨_, hsecs.symm⟩
      have hrest : (regions.filter fun region => region.writable = writable).flatMap program.dataSectionList = rest := by
        rw [List.filter_cons_of_pos (by simpa using hw), List.flatMap_cons] at hsecs
        exact List.append_cancel_left hsecs
      rw [List.map_append, ← List.append_assoc] at hnodup ⊢
      rw [List.map_append, layoutEnd_append] at hfit ⊢
      have hkept : ∀ i ∈ program.dataSectionList region, r.1 (.section i) = program.original (.section i) := by
        intro i hi
        refine h.kept _ fun hmem => ?_
        have hapart := (List.nodup_append.1 (List.nodup_append.1 hnodup).1).2.2
        exact hapart _ hmem _ (List.mem_map_of_mem hi) rfl
      have hsort : std.sort (fun i => r.1 (.section i)) (program.dataSectionList region) =
          program.dataSectionList region := by
        refine StdSort.eq_of_ordered (List.Perm.refl _) (hordered.1.imp_of_mem fun {i j} hi hj hlt => ?_)
        rw [hkept i hi, hkept j hj]
        exact UInt64.lt_iff_toNat_lt.1 hlt
      have hstep : program.remapRegion std writable r region =
          (program.dataSectionList region).foldl program.remapSection r := by
        rw [remapRegion, if_neg (not_not.2 hw), hsort]
      have hpos : ∀ step ∈ rest.map program.sectionStep, 0 < step.1 := by
        intro step hstep
        obtain ⟨i, hi, rfl⟩ := List.mem_map.1 hstep
        rw [← hrest] at hi
        obtain ⟨region', hregion', hi⟩ := List.mem_flatMap.1 hi
        exact Nat.pos_of_ne_zero fun hzero =>
          haligned.2 region' (List.mem_of_mem_filter hregion') i hi (UInt64.toNat.inj hzero)
      have hpower : ∀ i ∈ program.dataSectionList region, ∃ k, (program.dataSection i).alignment.toNat = 2 ^ k :=
        fun i hi => (program.dataSection i).power.resolve_left (haligned.1 i hi)
      obtain ⟨hlaid, hend⟩ := laid_foldl program.remapSection .section
        (fun i => (program.dataSection i).alignment) (fun r i _ _ => rfl) hpower
        (List.nodup_append.1 hnodup).1 ((le_layoutEnd hpos).trans_lt hfit) h
      rw [hstep]
      have htail := ih haligned.2 hordered.2 hrest hnodup (by rw [hend]; exact hfit) hlaid
      rw [hend] at htail
      exact htail
    · have hsame : program.remapRegion std writable r region = r := by rw [remapRegion, if_pos hw]
      rw [List.filter_cons_of_neg (by simpa using hw)] at hsecs
      rw [hsame]
      exact ih haligned.2 hordered.2 hsecs hnodup hfit h

theorem laid_remapData {start' : UInt64} (hok : Orderly std program start') {writable : Bool} {m : BinModule}
    (hm : m ∈ program.modules) (hnodup : (l ++ (program.sections writable m).map BinChunk.section).Nodup)
    (hfit : layoutEnd r.2.toNat (program.sectionSteps writable m) < 2 ^ 64) (h : Laid program start l r) :
    Laid program start (l ++ (program.sections writable m).map BinChunk.section) (program.remapData std m writable r) ∧
      (program.remapData std m writable r).2.toNat = layoutEnd r.2.toNat (program.sectionSteps writable m) :=
  laid_regions std (hok.aligned m hm) (hok.ordered m hm) rfl hnodup hfit h

/-- The chunks of one kind of data. -/
def dataChunks (program : BinProgram) (writable : Bool) : List BinChunk :=
  (program.sections writable program.main).map .section ++
    program.addon.elim [] fun addon => (program.sections writable addon).map .section

theorem pos_dataSteps {start' : UInt64} (h : Orderly std program start') {align : Option UInt64}
    (halign : ∀ a, align = some a → a = 0 ∨ ∃ k, a.toNat = 2 ^ k) (writable : Bool) :
    ∀ step ∈ program.dataSteps writable align, 0 < step.1 := by
  have hsection : ∀ m ∈ program.modules, ∀ step ∈ program.sectionSteps writable m, 0 < step.1 := by
    intro m hm step hstep
    obtain ⟨i, hi, rfl⟩ := List.mem_map.1 hstep
    obtain ⟨region, hregion, hi⟩ := List.mem_flatMap.1 hi
    exact Nat.pos_of_ne_zero fun hzero =>
      h.aligned m hm region (List.mem_of_mem_filter hregion) i hi (UInt64.toNat.inj hzero)
  intro step hstep
  rcases List.mem_cons.1 hstep with rfl | hstep
  · obtain ⟨k, hk⟩ := pageAlign_power halign
    exact hk ▸ Nat.two_pow_pos k
  rcases List.mem_append.1 hstep with hstep | hstep
  · exact hsection _ List.mem_cons_self step hstep
  · cases haddon : program.addon with
    | none =>
      rw [haddon] at hstep
      cases hstep
    | some addon =>
      rw [haddon] at hstep
      rcases List.mem_cons.1 hstep with rfl | hstep
      · exact Nat.succ_pos 7
      · exact hsection addon (by simp [modules, haddon]) step hstep

/-- One kind of data of both modules, from a new page on. -/
theorem laid_both {start' : UInt64} (hok : Orderly std program start') {writable : Bool} {align : Option UInt64}
    (halign : ∀ a, align = some a → a = 0 ∨ ∃ k, a.toNat = 2 ^ k)
    (hnodup : (l ++ program.dataChunks writable).Nodup)
    (hfit : layoutEnd r.2.toNat (program.dataSteps writable align) < 2 ^ 64) (h : Laid program start l r) :
    Laid program start (l ++ program.dataChunks writable) (program.remapBoth std writable (r.1, alignUp r.2 align)) ∧
      (program.remapBoth std writable (r.1, alignUp r.2 align)).2.toNat =
        layoutEnd r.2.toNat (program.dataSteps writable align) := by
  have hpos := pos_dataSteps hok halign writable
  have hstart : layoutEnd r.2.toNat (program.dataSteps writable align) =
      layoutEnd (layoutEnd (roundUp (pageAlign align).toNat r.2.toNat) (program.sectionSteps writable program.main))
        (program.addon.elim [] fun addon => (8, 0) :: program.sectionSteps writable addon) := by
    rw [dataSteps, layoutEnd, List.foldl_cons, ← layoutEnd, Nat.add_zero, layoutEnd_append]
  rw [dataSteps, List.forall_mem_cons, List.forall_mem_append] at hpos
  obtain ⟨-, hmainPos, haddonPos⟩ := hpos
  rw [hstart] at hfit ⊢
  have hmainFit := (le_layoutEnd haddonPos).trans_lt hfit
  obtain ⟨hpage, hpageEnd⟩ := laid_bump (pageAlign_power halign) ((le_layoutEnd hmainPos).trans_lt hmainFit) h
  unfold dataChunks at hnodup ⊢
  rw [← List.append_assoc] at hnodup ⊢
  obtain ⟨hmain, hmainEnd⟩ := laid_remapData hok List.mem_cons_self (List.nodup_append.1 hnodup).1
    (by rw [hpageEnd]; exact hmainFit) hpage
  rw [hpageEnd] at hmainEnd
  cases haddon : program.addon with
  | none =>
    simp only [remapBoth, haddon, Option.elim_none, List.append_nil]
    exact ⟨hmain, hmainEnd⟩
  | some addon =>
    have hmem : addon ∈ program.modules := by simp [modules, haddon]
    rw [haddon] at hnodup hfit haddonPos
    rw [Option.elim_some, layoutEnd, List.foldl_cons, ← layoutEnd, Nat.add_zero, ← hmainEnd] at hfit
    rw [Option.elim_some, List.forall_mem_cons] at haddonPos
    have hpower : ∃ k, (8 : UInt64).toNat = 2 ^ k := ⟨3, rfl⟩
    obtain ⟨height, heightEnd⟩ := laid_bump hpower ((le_layoutEnd haddonPos.2).trans_lt hfit) hmain
    have height8 : (8 : UInt64).toNat = 8 := rfl
    rw [height8] at heightEnd
    obtain ⟨hlaid, hend⟩ := laid_remapData hok hmem hnodup (by rw [heightEnd]; exact hfit) height
    simp only [remapBoth, haddon]
    refine ⟨hlaid, hend.trans ?_⟩
    rw [heightEnd, Option.elim_some, layoutEnd, layoutEnd, List.foldl_cons, Nat.add_zero, ← hmainEnd]

/-! ## Code -/

theorem mem_original_chunks {x : BinChunk} {m : BinModule} (hm : m ∈ program.modules) (hx : x ∈ m.chunks) :
    x ∈ program.main.chunks ++ program.addon.elim [] BinModule.chunks := by
  rcases List.mem_cons.1 hm with rfl | hm
  · exact List.mem_append_left _ hx
  · rw [Option.mem_toList] at hm
    rw [hm]
    exact List.mem_append_right _ hx

/-- The loops return the end of the last function. -/
theorem endOfList_foldl (f : Addresses × UInt64 → Nat → Addresses × UInt64) {xs : List Nat}
    (hf : ∀ r i, ∃ address, f r i = program.setPosition r (.function i) address) (hne : xs ≠ []) :
    program.endOfList (xs.foldl f r).1 xs = some (xs.foldl f r).2 := by
  obtain ⟨init, i, rfl⟩ := List.eq_nil_or_concat' xs |>.resolve_left hne
  obtain ⟨address, haddress⟩ := hf (init.foldl f r) i
  rw [endOfList, List.getLast?_concat, List.foldl_append, List.foldl_cons, List.foldl_nil, haddress]
  simp [setPosition]

theorem laid_start (front : UInt64) (hstart : start ≤ front.toNat) :
    Laid program start [] (program.original, front) :=
  ⟨trivial, hstart, fun _ _ => rfl⟩

/-- The functions of the main module. -/
theorem laid_main {start' : UInt64} (hok : Orderly std program start') {i : Nat} {functions : List Nat}
    (hsorted : makeSortedFunctionList std program.original program.main = i :: functions)
    (hstart : start ≤ (program.function i).address.toNat)
    (hfit : layoutEnd ((program.function i).address.toNat + (program.function i).size.toNat)
      (functions.map program.functionStep) < 2 ^ 64) :
    Laid program start ((i :: functions).map .function)
        ((i :: functions).foldl program.reassignMain (program.original, (program.function i).address)) ∧
      ((i :: functions).foldl program.reassignMain (program.original, (program.function i).address)).2.toNat =
        layoutEnd ((program.function i).address.toNat + (program.function i).size.toNat)
          (functions.map program.functionStep) := by
  have hperm : (i :: functions).Perm program.main.functions := hsorted ▸ std.perm _ _
  have hordered : (i :: functions).Pairwise fun i j => (program.function i).address.toNat ≤ (program.function j).address.toNat :=
    hsorted ▸ std.sorted (fun i => program.original (.function i)) program.main.functions
  have hnodup : (i :: functions).Nodup := by
    rw [hperm.nodup_iff]
    have hall := (List.nodup_append.1 (List.nodup_append.1 program.nodup).1).1
    exact hall.of_map _
  -- only the first function can be at address zero
  have hzero : ∀ j ∈ functions, (program.function j).address ≠ 0 := by
    intro j hj h0
    have hle := (List.pairwise_cons.1 hordered).1 j hj
    rw [h0] at hle
    have hi0 : (program.function i).address = 0 := UInt64.toNat.inj (Nat.le_zero.1 hle)
    have hij := hok.zero i (hperm.mem_iff.1 List.mem_cons_self) j (hperm.mem_iff.1 (List.mem_cons_of_mem _ hj)) hi0 h0
    exact (List.nodup_cons.1 hnodup).1 (hij ▸ hj)
  have hpower : ∀ j ∈ functions,
      ∃ k, ((program.function j).address &&& -(program.function j).address).toNat = 2 ^ k := by
    intro j hj
    obtain ⟨k, hk, -⟩ := toNat_and_neg (hzero j hj)
    exact ⟨k, hk⟩
  have hpos : ∀ step ∈ functions.map program.functionStep, 0 < step.1 := by
    intro step hstep
    obtain ⟨j, hj, rfl⟩ := List.mem_map.1 hstep
    obtain ⟨k, hk⟩ := hpower j hj
    have hstepPos : (program.functionStep j).1 = 2 ^ k := hk
    exact hstepPos ▸ Nat.two_pow_pos k
  have hfirst : program.reassignMain (program.original, (program.function i).address) i =
      program.setPosition (program.original, (program.function i).address) (.function i) (program.function i).address := by
    change program.setPosition _ _ (roundUpBy (program.function i).address
      ((program.function i).address &&& -(program.function i).address)) = _
    rw [roundUpBy_self]
  obtain ⟨hlaid, hend⟩ : Laid program start [.function i] (program.setPosition
        (program.original, (program.function i).address) (.function i) (program.function i).address) ∧
      (program.setPosition (program.original, (program.function i).address) (.function i)
        (program.function i).address).2.toNat = (program.function i).address.toNat + (program.function i).size.toNat :=
    laid_setPosition (laid_start _ hstart) List.not_mem_nil le_rfl ((le_layoutEnd hpos).trans_lt hfit)
  rw [List.foldl_cons, hfirst, ← hend]
  have hnodup' : ([BinChunk.function i] ++ functions.map BinChunk.function).Nodup := by
    have hinj : Function.Injective BinChunk.function := fun _ _ h => by cases h; rfl
    simpa using hnodup.map hinj
  exact laid_foldl program.reassignMain .function (fun j => (program.function j).address &&& -(program.function j).address)
    (fun r j _ hkept => by rw [reassignMain, hkept]; rfl) hpower hnodup' (by rw [hend]; exact hfit) hlaid

/-- The functions of both modules. -/
theorem laid_reassign {start' : UInt64} (hok : Orderly std program start') {i : Nat} {functions : List Nat}
    (hsorted : makeSortedFunctionList std program.original program.main = i :: functions)
    (hstart : start ≤ (program.function i).address.toNat)
    (hfit : layoutEnd ((program.function i).address.toNat + (program.function i).size.toNat)
      (functions.map program.functionStep ++
        program.addonFunctions.map fun i => (1, (program.function i).size.toNat)) < 2 ^ 64) :
    ∃ (r : Addresses × UInt64) (addonList : List Nat), program.reassignFunctionAddress std program.original = some r ∧
      addonList.Perm program.addonFunctions ∧
      Laid program start ((i :: functions).map .function ++ addonList.map .function) r ∧
      r.2.toNat = layoutEnd ((program.function i).address.toNat + (program.function i).size.toNat)
        (functions.map program.functionStep ++
          program.addonFunctions.map fun i => (1, (program.function i).size.toNat)) := by
  rw [layoutEnd_append] at hfit ⊢
  have honePos : ∀ step ∈ program.addonFunctions.map fun i => (1, (program.function i).size.toNat), 0 < step.1 := by
    intro step hstep
    obtain ⟨j, -, rfl⟩ := List.mem_map.1 hstep
    exact Nat.one_pos
  obtain ⟨hmain, hmainEnd⟩ := laid_main hok hsorted hstart ((le_layoutEnd honePos).trans_lt hfit)
  rw [← hmainEnd] at hfit ⊢
  have hreturn : program.endOfList
      ((i :: functions).foldl program.reassignMain (program.original, (program.function i).address)).1 (i :: functions) =
      some ((i :: functions).foldl program.reassignMain (program.original, (program.function i).address)).2 :=
    endOfList_foldl program.reassignMain (fun r j => ⟨roundUpBy r.2 (r.1 (.function j) &&& -r.1 (.function j)), rfl⟩)
      (List.cons_ne_nil i functions)
  unfold reassignFunctionAddress
  rw [hsorted]
  simp only [List.head?_cons, Option.bind_eq_bind, Option.bind_some]
  have hfront : program.original (.function i) = (program.function i).address := rfl
  rw [hfront]
  generalize (i :: functions).foldl program.reassignMain (program.original, (program.function i).address) = r at *
  cases haddon : program.addon with
  | none =>
    refine ⟨r, [], ?_, by simp [addonFunctions, haddon], by simpa using hmain, by simp [addonFunctions, haddon, layoutEnd]⟩
    dsimp only
    rw [hreturn]
    rfl
  | some addon =>
    have hmem : addon ∈ program.modules := by simp [modules, haddon]
    have hfunctions : program.addonFunctions = addon.functions := by rw [addonFunctions, haddon, Option.elim_some]
    have hperm : (makeSortedFunctionList std r.1 addon).Perm addon.functions := std.perm _ _
    rw [hfunctions] at hfit ⊢
    have hsame : layoutEnd r.2.toNat ((makeSortedFunctionList std r.1 addon).map fun j => (1, (program.function j).size.toNat)) =
        layoutEnd r.2.toNat (addon.functions.map fun j => (1, (program.function j).size.toNat)) := by
      rw [layoutEnd_one, layoutEnd_one, (hperm.map _).sum_eq]
    have hnodup : ((i :: functions).map BinChunk.function ++
        (makeSortedFunctionList std r.1 addon).map BinChunk.function).Nodup := by
      have hmain : (i :: functions).Perm program.main.functions := hsorted ▸ std.perm _ _
      refine (((hmain.map _).append (hperm.map _)).nodup_iff).2 (program.nodup.sublist ?_)
      rw [haddon]
      exact (List.sublist_append_left _ _).append (List.sublist_append_left _ _)
    have hlist : makeSortedFunctionList std r.1 addon ≠ [] := fun hnil =>
      hok.addon addon haddon (List.nil_perm.1 (hnil ▸ hperm))
    obtain ⟨hlaid, hend⟩ := laid_foldl program.reassignAddon .function (fun _ => 1)
      (fun r j _ _ => by rw [roundUpBy_one]; rfl) (fun _ _ => ⟨0, rfl⟩) hnodup (by rw [← hsame] at hfit; exact hfit) hmain
    refine ⟨_, makeSortedFunctionList std r.1 addon, ?_, hperm, hlaid, hend.trans hsame⟩
    dsimp only
    rw [endOfList_foldl program.reassignAddon (fun r j => ⟨r.2, rfl⟩) hlist]
    rfl

/-! ## The whole layout -/

theorem remapBss_other {m : BinModule} {x : BinChunk} (hx : ∀ i, x = .section i → (program.dataSection i).type ≠ .bss) :
    (program.remapBss m r).1 x = r.1 x := by
  have hsection : ∀ (r : Addresses × UInt64) i, (program.remapBssSection r i).1 x = r.1 x := by
    intro r i
    unfold remapBssSection
    split
    · case isTrue hbss => exact Function.update_of_ne (fun heq => hx i heq hbss) _ _
    · rfl
  have hregion : ∀ (children : List Nat) (r : Addresses × UInt64),
      (children.foldl program.remapBssSection r).1 x = r.1 x := by
    intro children
    induction children with
    | nil => exact fun _ => rfl
    | cons i children ih => exact fun r => (ih _).trans (hsection r i)
  unfold remapBss
  induction m.regions generalizing r with
  | nil => rfl
  | cons region regions ih => exact ih.trans (hregion _ _)

/-- The order of the layout. -/
def layoutOrder (program : BinProgram) (functions addonList : List Nat) : List BinChunk :=
  functions.map .function ++ addonList.map .function ++ program.dataChunks false ++ program.dataChunks true

theorem perm_sections (program : BinProgram) (m : BinModule) :
    ((program.sections false m).map BinChunk.section ++ (program.sections true m).map BinChunk.section).Perm
      (m.regions.flatMap fun region => (program.dataSectionList region).map .section) := by
  have hwritable : (fun region : BinRegion => decide (region.writable = true)) =
      fun region => !decide (region.writable = false) := by
    funext region
    cases region.writable <;> rfl
  unfold sections
  rw [List.map_flatMap, List.map_flatMap, ← List.flatMap_append, hwritable]
  exact (List.filter_append_perm _ m.regions).flatMap_right _

theorem perm_layoutOrder {functions addonList : List Nat} (hmain : functions.Perm program.main.functions)
    (haddon : addonList.Perm program.addonFunctions) : (program.layoutOrder functions addonList).Perm program.written := by
  have hsections := perm_sections program program.main
  unfold layoutOrder dataChunks written modules
  unfold addonFunctions at haddon
  rw [List.perm_iff_count] at hsections ⊢
  have hfunctions := List.perm_iff_count.1 (hmain.map BinChunk.function)
  intro x
  have hs := hsections x
  have hf := hfunctions x
  cases hnone : program.addon with
  | none =>
    rw [hnone, Option.elim_none, List.perm_nil] at haddon
    simp only [haddon, List.count_append, Option.elim_none, Option.toList_none, List.flatMap_cons, List.flatMap_nil,
      List.map_nil, List.count_nil] at hs ⊢
    omega
  | some addon =>
    rw [hnone, Option.elim_some] at haddon
    have ha := List.perm_iff_count.1 (haddon.map BinChunk.function) x
    have hsa := List.perm_iff_count.1 (perm_sections program addon) x
    simp only [List.count_append, Option.elim_some, Option.toList_some, List.flatMap_cons, List.flatMap_nil,
      List.count_nil] at hs ha hsa ⊢
    omega

theorem written_nodup (program : BinProgram) : program.written.Nodup := by
  have hmodule : ∀ m : BinModule, (m.functions.map BinChunk.function ++
      m.regions.flatMap fun region => (program.dataSectionList region).map BinChunk.section).Sublist m.chunks := by
    intro m
    refine (List.Sublist.refl _).append ?_
    induction m.regions with
    | nil => exact .slnil
    | cons region regions ih => exact ((List.filter_sublist).map _).append ih
  refine program.nodup.sublist ?_
  unfold written modules
  cases program.addon with
  | none => simpa using hmodule program.main
  | some addon => simpa using (hmodule program.main).append (hmodule addon)

theorem laid_layout {start' : UInt64} (hok : Orderly std program start') {i : Nat} {functions : List Nat}
    (hsorted : makeSortedFunctionList std program.original program.main = i :: functions)
    (hstart : start ≤ (program.function i).address.toNat) :
    ∃ (at_ : Addresses) (addonList : List Nat), program.layout std = some at_ ∧
      addonList.Perm program.addonFunctions ∧
      Spaced (fun x => (at_ x).toNat) (fun x => (program.size x).toNat) start
        (program.layoutOrder (i :: functions) addonList) ∧
      Lib.endOf (fun x => (at_ x).toNat) (fun x => (program.size x).toNat) start
        (program.layoutOrder (i :: functions) addonList) ≤ program.imageEnd std := by
  have hrodata : ∀ a, program.rodataAlign = some a → a = 0 ∨ ∃ k, a.toNat = 2 ^ k := fun a ha => program.power a (.inl ha)
  have hdata : ∀ a, program.dataAlign = some a → a = 0 ∨ ∃ k, a.toNat = 2 ^ k := fun a ha => program.power a (.inr ha)
  have himage : program.imageEnd std = layoutEnd (layoutEnd (layoutEnd
      ((program.function i).address.toNat + (program.function i).size.toNat)
      (functions.map program.functionStep ++ program.addonFunctions.map fun i => (1, (program.function i).size.toNat)))
      (program.dataSteps false program.rodataAlign)) (program.dataSteps true program.dataAlign) := by
    rw [imageEnd, hsorted]
    dsimp only
    rw [imageSteps, layoutEnd_append, layoutEnd_append]
  have hfit := hok.fits.1
  rw [himage] at hfit ⊢
  have hroFit := (le_layoutEnd (pos_dataSteps hok hdata true)).trans_lt hfit
  have hcodeFit := (le_layoutEnd (pos_dataSteps hok hrodata false)).trans_lt hroFit
  obtain ⟨r, addonList, hr, hperm, hcode, hcodeEnd⟩ := laid_reassign hok hsorted hstart hcodeFit
  have hwritten := perm_layoutOrder (hsorted ▸ std.perm _ _ : (i :: functions).Perm program.main.functions) hperm
  have hnodup := hwritten.nodup_iff.2 program.written_nodup
  have hbss : ∀ x ∈ program.layoutOrder (i :: functions) addonList, ∀ j, x = .section j →
      (program.dataSection j).type ≠ .bss := by
    rintro x hx j rfl
    obtain ⟨m, -, hx⟩ := List.mem_flatMap.1 (hwritten.mem_iff.1 hx)
    rcases List.mem_append.1 hx with hx | hx
    · obtain ⟨_, -, heq⟩ := List.mem_map.1 hx
      cases heq
    · obtain ⟨region, -, hx⟩ := List.mem_flatMap.1 hx
      obtain ⟨k, hk, heq⟩ := List.mem_map.1 hx
      cases heq
      have htype := (List.mem_filter.1 hk).2
      simp only [ne_eq, decide_eq_true_eq] at htype
      exact htype.2
  unfold layoutOrder at hnodup
  rw [← hcodeEnd] at hfit hroFit ⊢
  obtain ⟨hro, hroEnd⟩ := laid_both hok hrodata (List.nodup_append.1 hnodup).1 hroFit hcode
  rw [← hroEnd] at hfit ⊢
  obtain ⟨hrw, hrwEnd⟩ := laid_both hok hdata hnodup hfit hro
  rw [← hrwEnd]
  refine ⟨program.interleaveData std r, addonList, by rw [layout, hr]; rfl, hperm, ?_⟩
  -- the sections of `.bss` move last, and they are not written
  have hsame : ∀ x ∈ program.layoutOrder (i :: functions) addonList,
      ((program.remapBoth std true ((program.remapBoth std false (r.1, alignUp r.2 program.rodataAlign)).1,
        alignUp (program.remapBoth std false (r.1, alignUp r.2 program.rodataAlign)).2 program.dataAlign)).1 x).toNat =
        (program.interleaveData std r x).toNat ∧ (program.size x).toNat = (program.size x).toNat := by
    intro x hx
    refine ⟨congrArg UInt64.toNat ?_, rfl⟩
    unfold interleaveData
    cases program.addon with
    | none =>
      dsimp only
      rw [remapBss_other (hbss x hx)]
    | some addon =>
      dsimp only
      rw [remapBss_other (hbss x hx), remapBss_other (hbss x hx)]
  obtain ⟨hspaced, hend⟩ := spaced_congr start hsame
  exact ⟨hspaced.1 hrw.spaced, hend ▸ hrw.fits⟩

/-! ## The output -/

/-- One chunk at or behind the position. -/
theorem writeChunk_of_le {at_ : Addresses} (image : List UInt8) {pos : UInt64} {x : BinChunk}
    (hsize : (program.size x).toNat = (program.bytes x).length) (hle : pos.toNat ≤ (at_ x).toNat)
    (hend : (at_ x).toNat + (program.size x).toNat < 2 ^ 64)
    (hfit : image.length + ((at_ x).toNat + (program.size x).toNat - pos.toNat) ≤ maxFile) :
    program.writeChunk at_ (image, pos) x =
        some (image ++ (List.replicate ((at_ x).toNat - pos.toNat) 0 ++ program.bytes x), at_ x + program.size x) ∧
      (at_ x + program.size x).toNat = (at_ x).toNat + (program.size x).toNat := by
  have hzeros : (if pos ≠ at_ x then (at_ x - pos).toNat else 0) = (at_ x).toNat - pos.toNat := by
    by_cases heq : pos = at_ x
    · rw [if_neg (not_not.2 heq), heq, Nat.sub_self]
    · rw [if_pos heq, UInt64.toNat_sub_of_le _ _ (UInt64.le_iff_toNat_le.2 hle)]
  refine ⟨?_, by rw [UInt64.toNat_add, Nat.mod_eq_of_lt hend]⟩
  simp only [writeChunk, hzeros]
  rw [if_pos (by omega)]

theorem writeChunk_foldlM {at_ : Addresses} (image : List UInt8) {pos : UInt64}
    (hsize : ∀ x ∈ l, (program.size x).toNat = (program.bytes x).length)
    (hspaced : Spaced (fun x => (at_ x).toNat) (fun x => (program.bytes x).length) pos.toNat l)
    (hend : Lib.endOf (fun x => (at_ x).toNat) (fun x => (program.bytes x).length) pos.toNat l < 2 ^ 64)
    (hfit : image.length +
      (Lib.endOf (fun x => (at_ x).toNat) (fun x => (program.bytes x).length) pos.toNat l - pos.toNat) ≤
      maxFile) :
    ∃ pos', l.foldlM (program.writeChunk at_) (image, pos) =
      some (image ++ padded (fun x => (at_ x).toNat) program.bytes 0 pos.toNat l, pos') := by
  induction l generalizing image pos with
  | nil => exact ⟨pos, by simp [padded]⟩
  | cons x l ih =>
    rw [List.forall_mem_cons] at hsize
    rw [Lib.endOf] at hend hfit
    have hle : pos.toNat ≤ (at_ x).toNat := hspaced.1
    have hbehind : (at_ x).toNat + (program.bytes x).length ≤ Lib.endOf (fun x => (at_ x).toNat)
        (fun x => (program.bytes x).length) ((at_ x).toNat + (program.bytes x).length) l := le_endOf hspaced.2
    obtain ⟨hwrite, hpos⟩ := writeChunk_of_le image hsize.1 hle (by rw [hsize.1]; omega)
      (by rw [hsize.1]; omega)
    rw [hsize.1] at hpos
    have hlength : (image ++ (List.replicate ((at_ x).toNat - pos.toNat) 0 ++ program.bytes x)).length =
        image.length + ((at_ x).toNat - pos.toNat + (program.bytes x).length) := by
      rw [List.length_append, List.length_append, List.length_replicate]
    have hrest := ih _ hsize.2 (by rw [hpos]; exact hspaced.2) (by rw [hpos]; exact hend)
      (by rw [hpos, hlength]; omega)
    obtain ⟨pos', hrest⟩ := hrest
    refine ⟨pos', ?_⟩
    rw [List.foldlM_cons, hwrite]
    rw [hpos] at hrest
    refine hrest.trans ?_
    rw [padded, List.append_assoc, List.append_assoc]

/-- The order in which `writeOut` goes over the chunks. -/
def writeOrder (std : StdSort) (program : BinProgram) (at_ : Addresses) : List BinChunk :=
  (program.modules.flatMap fun m => (makeSortedFunctionList std at_ m).map .function) ++
    (program.modules.flatMap fun m => (program.sections false m).map .section) ++
    (program.modules.flatMap fun m => (program.sections true m).map .section)

theorem writeOutData_eq (at_ : Addresses) (writable : Bool) (m : BinModule) (r : List UInt8 × UInt64) :
    program.writeOutData at_ writable m r =
      ((program.sections writable m).map BinChunk.section).foldlM (program.writeChunk at_) r := by
  unfold writeOutData sections
  induction m.regions generalizing r with
  | nil => rfl
  | cons region regions ih =>
    rw [List.foldlM_cons]
    by_cases hw : region.writable = writable
    · rw [writeOutRegion, if_neg (not_not.2 hw), List.filter_cons_of_pos (by simpa using hw), List.flatMap_cons,
        List.map_append, List.foldlM_append, List.foldlM_map]
      congr 1
      funext r'
      exact ih r'
    · rw [writeOutRegion, if_pos hw, List.filter_cons_of_neg (by simpa using hw)]
      exact ih r

theorem writeOut_eq (at_ : Addresses) (pos : UInt64) : program.writeOut std at_ pos =
    ((writeOrder std program at_).foldlM (program.writeChunk at_) ([], pos)).map Prod.fst := by
  have hflat : ∀ (g : BinModule → List BinChunk) (modules : List BinModule) (r : List UInt8 × UInt64),
      modules.foldlM (fun r m => (g m).foldlM (program.writeChunk at_) r) r =
        (modules.flatMap g).foldlM (program.writeChunk at_) r := by
    intro g modules
    induction modules with
    | nil => exact fun _ => rfl
    | cons m modules ih =>
      intro r
      rw [List.foldlM_cons, List.flatMap_cons, List.foldlM_append]
      congr 1
      funext r'
      exact ih r'
  have hcode : ∀ r m, program.writeOutCode std at_ m r =
      ((makeSortedFunctionList std at_ m).map BinChunk.function).foldlM (program.writeChunk at_) r := by
    intro r m
    rw [writeOutCode, List.foldlM_map]
  unfold writeOut writeOrder
  simp only [hcode, writeOutData_eq, hflat]
  rw [List.foldlM_append, List.foldlM_append]
  simp only [Option.bind_eq_bind, Option.bind_assoc, Option.map_bind]
  refine congrArg _ (funext fun r => ?_)
  rw [Function.comp_apply, Option.map_bind]
  refine congrArg _ (funext fun r' => ?_)
  rw [Function.comp_apply, Option.map_eq_bind]
  rfl

/-- Where no function is empty, the second sort by the new addresses finds the same order. -/
theorem sorted_again (std : StdSort) {at_ : Addresses} {m : BinModule} {list : List Nat} (hperm : list.Perm m.functions)
    (hcode : ∀ i ∈ m.functions, (program.function i).size ≠ 0)
    (hspaced : (list.map BinChunk.function).Pairwise fun x y =>
      (at_ x).toNat + (program.size x).toNat ≤ (at_ y).toNat) : makeSortedFunctionList std at_ m = list := by
  refine StdSort.eq_of_ordered hperm ((List.pairwise_map.1 hspaced).imp_of_mem fun {i j} hi _ hle => ?_)
  have hsize : (program.size (.function i)).toNat ≠ 0 := fun hzero =>
    hcode i (hperm.mem_iff.1 hi) (UInt64.toNat.inj hzero)
  omega

theorem size_eq_of_mem_written {x : BinChunk} (hx : x ∈ program.written) :
    (program.size x).toNat = (program.bytes x).length := by
  match x, hx with
  | .function i, _ => exact (program.function i).size_eq
  | .section i, hx =>
    obtain ⟨m, -, hx⟩ := List.mem_flatMap.1 hx
    rcases List.mem_append.1 hx with hx | hx
    · obtain ⟨_, -, heq⟩ := List.mem_map.1 hx
      cases heq
    · obtain ⟨region, -, hx⟩ := List.mem_flatMap.1 hx
      obtain ⟨k, hk, heq⟩ := List.mem_map.1 hx
      cases heq
      have htype := (List.mem_filter.1 hk).2
      simp only [ne_eq, decide_eq_true_eq] at htype
      exact (program.dataSection i).size_eq htype.2

theorem length_ret : (1 : UInt64).toNat = ([[0xc3]] : List (List UInt8)).flatten.length := rfl

/-- One function, and two sections in one read-only region. -/
def twoSections (first second : UInt64) : BinProgram where
  function _ := ⟨0x1000, 1, [[0xc3]], length_ret⟩
  dataSection i :=
    if i = 0 then ⟨.data, first, 2, 1, [1, 2], fun _ => rfl, .inr ⟨0, rfl⟩⟩
    else ⟨.data, second, 1, 1, [3], fun _ => rfl, .inr ⟨0, rfl⟩⟩
  main := ⟨[0], [⟨false, [0, 1]⟩]⟩
  addon := none
  rodataAlign := none
  dataAlign := none
  bssAlign := none
  nodup := by decide
  power := by simp

theorem twoSections_orderly : (twoSections 0x2000 0x2008).Orderly insertionStdSort 0x1000 where
  addon := by simp [twoSections]
  code := by simp [modules, twoSections]
  zero := by simp [twoSections]
  aligned := by decide
  ordered := by decide
  fits := by decide +kernel

end BinProgram

end Egalito.Generate
