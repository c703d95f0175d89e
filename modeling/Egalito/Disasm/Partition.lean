import Egalito.Disasm.Padding
/-!
# The functions of a section

What `linearDisassembly` makes of a section, as the number of functions that an
address is in. The known functions are in the result as they were given; what is
not known is in the part of the section it belongs to, if that part has been
kept, without the padding behind it.
-/

open Egalito.Lib Egalito.IntervalTree

namespace Egalito.Disasm

theorem range_eq {q r : Range} (hstart : q.start.toNat = r.start.toNat) (hend : q.getEnd.toNat = r.getEnd.toNat) :
    q = r := by
  obtain ⟨qs, qn⟩ := q
  obtain ⟨rs, rn⟩ := r
  obtain rfl : qs = rs := BitVec.eq_of_toNat_eq hstart
  have hsum : qs + qn = qs + rn := BitVec.eq_of_toNat_eq hend
  rw [BitVec.add_right_inj] at hsum
  rw [hsum]

/-- Something lies between the ranges. -/
def Clear (q r : Range) : Prop := q.getEnd.toNat < r.start.toNat ∨ r.getEnd.toNat < q.start.toNat

instance : Std.Symm Clear where
  symm _ _ := Or.symm

section Steps

variable {text : Range} {functionPadding tree : Node} {runs ranges known : List Range} {func : Range} {fuel : Nat}

/-! ## The padding at the end of a function -/

/-- Some padding starts at the end of the function or before it. -/
def hasPadding (runs : List Range) (func : Range) : Bool := runs.any fun r => r.start ≤ func.getEnd

theorem hasPadding_iff : hasPadding runs func = true ↔ ∃ r ∈ runs, r.start.toNat ≤ func.getEnd.toNat := by
  simp only [hasPadding, List.any_eq_true, decide_eq_true_eq, BitVec.le_def]

section Bound

variable (h : Keeps text functionPadding runs) (hgap : runs.Pairwise fun q r => r.getEnd.toNat < q.start.toNat)

include h hgap

theorem padding_apart : functionPadding.inStartOrderTraversal.Pairwise Apart := by
  have hapart : runs.Pairwise Apart := hgap.imp fun {q r} hqr => apart_iff_separate.2 (.inr hqr.le)
  exact h.perm.symm.pairwise hapart fun {x y} hxy => Std.Symm.symm x y hxy

/-- Without a bound, the padding is behind the function. -/
theorem bound_none (hbound : functionPadding.findLowerBoundOrOverlapping func.getEnd = none) :
    hasPadding runs func = false := by
  rw [findLowerBoundOrOverlapping_eq h.stored (padding_apart h hgap), List.find?_eq_none] at hbound
  rw [Bool.eq_false_iff, Ne, hasPadding_iff]
  rintro ⟨r, hr, hle⟩
  have hno := hbound r (List.mem_reverse.2 (h.perm.mem_iff.2 hr))
  rw [Bool.or_eq_true, Range.endsBefore_iff, Range.contains_iff] at hno
  omega

/-- The bound is the last padding that does not start behind the function. -/
theorem bound_some {bound : Range} (hbound : functionPadding.findLowerBoundOrOverlapping func.getEnd = some bound) :
    bound ∈ runs ∧ bound.start.toNat ≤ func.getEnd.toNat ∧
      ∀ r ∈ runs, r.start.toNat ≤ func.getEnd.toNat → func.getEnd.toNat ≤ r.getEnd.toNat → r = bound := by
  have hclear : runs.Pairwise Clear := hgap.imp .inr
  have hbound := (findLowerBoundOrOverlapping_iff h.stored (padding_apart h hgap) _ _).1 hbound
  simp only [OrOverlapping, h.perm.mem_iff] at hbound
  rcases hbound with ⟨hmem, hin⟩ | ⟨hnone, hmem, hbefore, hnearest⟩
  · rw [Range.contains_iff] at hin
    refine ⟨hmem, hin.1, fun r hr hle hge => ?_⟩
    by_contra hne
    have := hclear.forall hr hmem hne
    unfold Clear at this
    omega
  · rw [h.perm.mem_iff] at hmem
    have hproper := h.within hmem
    rw [Range.endsBefore_iff] at hbefore
    refine ⟨hmem, by omega, fun r hr hle hge => ?_⟩
    -- the padding ends at the end of the function, as the bound does
    have hout := hnone r hr
    rw [Bool.eq_false_iff, Ne, Range.contains_iff] at hout
    have hnear := hnearest r (h.perm.mem_iff.2 hr) (Range.endsBefore_iff.2 (by omega))
    rw [BitVec.le_def] at hnear
    by_contra hne
    have hcl := hclear.forall hr hmem hne
    have hr' := h.within hr
    unfold Clear at hcl
    omega

end Bound

theorem endsInPadding_iff {bound : Range} (hstart : bound.start.toNat ≤ func.getEnd.toNat) :
    endsInPadding func bound = true ↔ func.getEnd.toNat ≤ bound.getEnd.toNat := by
  rw [endsInPadding, Bool.or_eq_true, beq_iff_eq, Range.contains_iff, ← BitVec.toNat_inj]
  omega

/-- The padding that a function ends in starts behind the start of the function. -/
def Fits (runs : List Range) (func : Range) : Prop := ∀ r ∈ runs, r.start.toNat ≤ func.getEnd.toNat →
  func.getEnd.toNat ≤ r.getEnd.toNat → func.start.toNat < r.start.toNat

/-! ## Shrinking -/

section Shrink

variable (hfuel : addDepth ≤ fuel) (hpad : Keeps text functionPadding runs)
  (hgap : runs.Pairwise fun q r => r.getEnd.toNat < q.start.toNat)
  (hfunc : text.start.toNat ≤ func.start.toNat ∧ func.start.toNat < func.getEnd.toNat ∧
    func.getEnd.toNat ≤ text.getEnd.toNat)

include hfuel hpad hgap hfunc

/-- A function that fits is kept up to its padding, if there is any padding in front of its end. -/
theorem shrink_spec (h : Keeps text tree ranges) (hfits : Fits runs func) :
    ∃ tree' ranges', shrink fuel functionPadding tree func = some tree' ∧ Keeps text tree' (ranges' ++ ranges) ∧
      ∀ p, depthAt p ranges' ≤ depthAt p [func] ∧ ((∀ r ∈ runs, ¬ (r.start.toNat ≤ p ∧ p < r.getEnd.toNat)) →
        depthAt p ranges' = if hasPadding runs func then depthAt p [func] else 0) := by
  unfold shrink
  cases hbound : functionPadding.findLowerBoundOrOverlapping func.getEnd with
  | none =>
    rw [bound_none hpad hgap hbound]
    exact ⟨tree, [], rfl, h, fun p => ⟨Nat.zero_le _, fun _ => rfl⟩⟩
  | some bound =>
    obtain ⟨hmem, hle, honly⟩ := bound_some hpad hgap hbound
    have hhas : hasPadding runs func = true := hasPadding_iff.2 ⟨bound, hmem, hle⟩
    simp only [hhas, if_true]
    by_cases hends : endsInPadding func bound = true
    · have hge := (endsInPadding_iff hle).1 hends
      obtain ⟨tree', r, hadd, hrs, hre, h'⟩ := h.addBetween hfuel (hfits bound hmem hle hge) hfunc.1 (hle.trans hfunc.2.2)
      rw [if_pos hends]
      refine ⟨tree', [r], hadd, h', fun p => ?_⟩
      simp only [depthAt_cons, depthAt_nil, hrs, hre, Nat.zero_add]
      refine ⟨by split_ifs <;> omega, fun hp => ?_⟩
      have hout := hp bound hmem
      split_ifs <;> omega
    · obtain ⟨tree', hadd, h'⟩ := addTree_spec hfuel h (Range.proper_iff.2 hfunc.2.1)
        (Range.containsRange_iff.2 ⟨hfunc.1, hfunc.2.2⟩)
      rw [if_neg hends]
      exact ⟨tree', [func], hadd, h', fun p => ⟨le_rfl, fun _ => rfl⟩⟩

/-- Without that, the loop does not get behind it. -/
theorem fits_of_shrink (h : Keeps text tree ranges) {tree' : Node}
    (hshrink : shrink fuel functionPadding tree func = some tree') : Fits runs func := by
  intro r hr hle hge
  unfold shrink at hshrink
  cases hbound : functionPadding.findLowerBoundOrOverlapping func.getEnd with
  | none =>
    have hno := bound_none hpad hgap hbound
    rw [hasPadding_iff.2 ⟨r, hr, hle⟩] at hno
    cases hno
  | some bound =>
    obtain ⟨hmem, -, honly⟩ := bound_some hpad hgap hbound
    obtain rfl := honly r hr hle hge
    rw [hbound] at hshrink
    dsimp only at hshrink
    rw [if_pos ((endsInPadding_iff hle).2 hge)] at hshrink
    -- the range from the start to the padding is neither empty nor the wrong way round
    by_contra hnot
    simp only [Node.addBetween, Option.bind_eq_bind, Option.bind_eq_some_iff, Option.pure_def, Option.some.injEq]
      at hshrink
    obtain ⟨q, hq, ⟨tree₁, result⟩, hadd, -⟩ := hshrink
    obtain ⟨-, hqs, hqe⟩ := Range.fromEndpoints_some hq
    have hnone := add_eq_none (r := q) (by rw [Range.proper_iff, hqs, hqe]; exact hnot) fuel h.bounded
      (by rw [Range.containsRange_iff, hqs, hqe]; exact ⟨hfunc.1, hle.trans hfunc.2.2⟩)
    rw [hadd] at hnone
    cases hnone

end Shrink

section Loops

variable (hfuel : addDepth ≤ fuel) (hpad : Keeps text functionPadding runs)
  (hgap : runs.Pairwise fun q r => r.getEnd.toNat < q.start.toNat)

include hfuel hpad hgap

theorem shrinkAll_spec {funcs : List Range} (hfuncs : ∀ f ∈ funcs, text.start.toNat ≤ f.start.toNat ∧
    f.start.toNat < f.getEnd.toNat ∧ f.getEnd.toNat ≤ text.getEnd.toNat) (h : Keeps text tree ranges)
    (hfits : ∀ f ∈ funcs, Fits runs f) :
    ∃ tree' ranges', funcs.foldlM (shrink fuel functionPadding) tree = some tree' ∧
      Keeps text tree' (ranges' ++ ranges) ∧ ∀ p, depthAt p ranges' ≤ depthAt p funcs ∧
        ((∀ r ∈ runs, ¬ (r.start.toNat ≤ p ∧ p < r.getEnd.toNat)) →
          depthAt p ranges' = depthAt p (funcs.filter (hasPadding runs))) := by
  induction funcs generalizing tree ranges with
  | nil => exact ⟨tree, [], rfl, h, fun p => ⟨le_rfl, fun _ => rfl⟩⟩
  | cons func funcs ih =>
    rw [List.forall_mem_cons] at hfuncs hfits
    obtain ⟨tree₁, ranges₁, hstep, h₁, hdepth₁⟩ := shrink_spec hfuel hpad hgap hfuncs.1 h hfits.1
    obtain ⟨tree', ranges₂, hrun, h₂, hdepth₂⟩ := ih hfuncs.2 h₁ hfits.2
    refine ⟨tree', ranges₂ ++ ranges₁, by rw [List.foldlM_cons, hstep]; exact hrun, by rwa [List.append_assoc],
      fun p => ?_⟩
    obtain ⟨hle₁, heq₁⟩ := hdepth₁ p
    obtain ⟨hle₂, heq₂⟩ := hdepth₂ p
    rw [depthAt_cons, depthAt_nil, Nat.zero_add] at hle₁ heq₁
    rw [depthAt_append, depthAt_cons]
    refine ⟨by omega, fun hp => ?_⟩
    rw [heq₁ hp, heq₂ hp]
    by_cases hhas : hasPadding runs func = true
    · rw [List.filter_cons_of_pos hhas, depthAt_cons, if_pos hhas]
    · rw [List.filter_cons_of_neg hhas, if_neg hhas, Nat.add_zero]

theorem fits_of_shrinkAll {funcs : List Range} (hfuncs : ∀ f ∈ funcs, text.start.toNat ≤ f.start.toNat ∧
    f.start.toNat < f.getEnd.toNat ∧ f.getEnd.toNat ≤ text.getEnd.toNat) (h : Keeps text tree ranges) {tree' : Node}
    (hrun : funcs.foldlM (shrink fuel functionPadding) tree = some tree') : ∀ f ∈ funcs, Fits runs f := by
  induction funcs generalizing tree ranges with
  | nil => exact nofun
  | cons func funcs ih =>
    rw [List.forall_mem_cons] at hfuncs
    rw [List.foldlM_cons, Option.bind_eq_bind, Option.bind_eq_some_iff] at hrun
    obtain ⟨tree₁, hstep, hrun⟩ := hrun
    have hfits := fits_of_shrink hfuel hpad hgap hfuncs.1 h hstep
    obtain ⟨tree₂, ranges₂, hstep', h₂, -⟩ := shrink_spec hfuel hpad hgap hfuncs.1 h hfits
    obtain rfl := Option.some.inj (hstep.symm.trans hstep')
    exact List.forall_mem_cons.2 ⟨hfits, ih hfuncs.2 h₂ hrun⟩

/-! ## Removing the known functions -/

/-- A known function is removed with the padding that it ends in. -/
theorem removeKnown_spec (h : Keeps text tree ranges) (hfunc : func.Proper) :
    ∃ tree' ranges', removeKnown fuel functionPadding tree func = some tree' ∧ Keeps text tree' ranges' ∧
      ∀ p, depthAt p ranges' ≤ depthAt p ranges ∧
        (func.start.toNat ≤ p ∧ p < func.getEnd.toNat → depthAt p ranges' = 0) ∧
        (¬ (func.start.toNat ≤ p ∧ p < func.getEnd.toNat) → (∀ r ∈ runs, ¬ (r.start.toNat ≤ p ∧ p < r.getEnd.toNat)) →
          depthAt p ranges' = depthAt p ranges) := by
  -- without padding, only the function is removed
  have hplain : ∃ tree' ranges', tree.subtract fuel func = some tree' ∧ Keeps text tree' ranges' ∧
      ∀ p, depthAt p ranges' ≤ depthAt p ranges ∧
        (func.start.toNat ≤ p ∧ p < func.getEnd.toNat → depthAt p ranges' = 0) ∧
        (¬ (func.start.toNat ≤ p ∧ p < func.getEnd.toNat) → (∀ r ∈ runs, ¬ (r.start.toNat ≤ p ∧ p < r.getEnd.toNat)) →
          depthAt p ranges' = depthAt p ranges) := by
    obtain ⟨tree', ranges', hrun, h', hdepth⟩ := h.subtract_depth hfuel hfunc le_rfl
    exact ⟨tree', ranges', hrun, h', fun p => ⟨(hdepth p).1, (hdepth p).2.2, fun hout _ => (hdepth p).2.1 hout⟩⟩
  unfold removeKnown
  cases hbound : functionPadding.findLowerBoundOrOverlapping func.getEnd with
  | none => exact hplain
  | some bound =>
    obtain ⟨hmem, hle, -⟩ := bound_some hpad hgap hbound
    dsimp only
    by_cases hends : endsInPadding func bound = true
    · rw [if_pos hends]
      have hge := (endsInPadding_iff hle).1 hends
      obtain ⟨tree', ranges', hrun, h', hdepth⟩ := h.subtract_depth hfuel hfunc hge
      refine ⟨tree', ranges', hrun, h', fun p => ⟨(hdepth p).1, (hdepth p).2.2, fun hout hno => (hdepth p).2.1 ?_⟩⟩
      have := hno bound hmem
      omega
    · rw [if_neg hends]
      exact hplain

theorem removeAll_spec (hknown : ∀ k ∈ known, k.Proper) (h : Keeps text tree ranges) :
    ∃ tree' ranges', known.foldlM (removeKnown fuel functionPadding) tree = some tree' ∧ Keeps text tree' ranges' ∧
      ∀ p, depthAt p ranges' ≤ depthAt p ranges ∧ (0 < depthAt p known → depthAt p ranges' = 0) ∧
        (depthAt p known = 0 → (∀ r ∈ runs, ¬ (r.start.toNat ≤ p ∧ p < r.getEnd.toNat)) →
          depthAt p ranges' = depthAt p ranges) := by
  induction known generalizing tree ranges with
  | nil => exact ⟨tree, ranges, rfl, h, fun p => ⟨le_rfl, fun hpos => absurd hpos (lt_irrefl 0), fun _ _ => rfl⟩⟩
  | cons func known ih =>
    rw [List.forall_mem_cons] at hknown
    obtain ⟨tree₁, ranges₁, hstep, h₁, hdepth₁⟩ := removeKnown_spec hfuel hpad hgap h hknown.1
    obtain ⟨tree', ranges', hrun, h', hdepth₂⟩ := ih hknown.2 h₁
    refine ⟨tree', ranges', by rw [List.foldlM_cons, hstep]; exact hrun, h', fun p => ?_⟩
    obtain ⟨hle₁, hin₁, hout₁⟩ := hdepth₁ p
    obtain ⟨hle₂, hin₂, hout₂⟩ := hdepth₂ p
    rw [depthAt_cons]
    by_cases hp : func.start.toNat ≤ p ∧ p < func.getEnd.toNat
    · rw [if_pos hp]
      have := hin₁ hp
      exact ⟨by omega, fun _ => by omega, fun hzero => by omega⟩
    · rw [if_neg hp, Nat.add_zero]
      exact ⟨by omega, hin₂, fun hzero hno => (hout₂ hzero hno).trans (hout₁ hp hno)⟩

end Loops

/-! ## The functions at the start -/

theorem crtLoop_spec (hfuel : addDepth ≤ fuel) (s : CrtMode × Node) (ins : Insn) (h : Keeps text s.2 ranges) :
    ∃ s' ranges', crtLoop fuel s ins = some s' ∧ Keeps text s'.2 ranges' ∧
      ∀ p, depthAt p ranges' = depthAt p ranges := by
  unfold crtLoop
  cases hstep : crtStep s.1 ins with
  | mk mode found =>
    cases found with
    | false => exact ⟨(mode, s.2), ranges, rfl, h, fun _ => rfl⟩
    | true =>
      obtain ⟨tree', result, ranges', hsplit, h', hdepth⟩ := h.splitAt_depth hfuel ins.address
      exact ⟨(mode, tree'), ranges', by simp [splitTree, hsplit], h', hdepth⟩

/-- The functions at the start are split, which changes none of the depths. -/
theorem crtBegin_spec (hfuel : addDepth ≤ fuel) (decoder : Decoder) (entryPoint : Address) (h : Keeps text tree ranges) :
    ∃ tree' ranges', crtBegin fuel decoder entryPoint tree = some tree' ∧ Keeps text tree' ranges' ∧
      ∀ p, depthAt p ranges' = depthAt p ranges := by
  unfold crtBegin
  cases tree.findUpperBound entryPoint with
  | none => exact ⟨tree, ranges, rfl, h, fun _ => rfl⟩
  | some crtBeginFunction =>
    have hloop : ∀ s ins, (∃ ranges', Keeps text s.2 ranges' ∧ ∀ p, depthAt p ranges' = depthAt p ranges) → True →
        ∃ s', crtLoop fuel s ins = some s' ∧ ∃ ranges', Keeps text s'.2 ranges' ∧
          ∀ p, depthAt p ranges' = depthAt p ranges := by
      rintro s ins ⟨ranges₁, h₁, hdepth₁⟩ -
      obtain ⟨s', ranges', hstep, h', hdepth⟩ := crtLoop_spec hfuel s ins h₁
      exact ⟨s', hstep, ranges', h', fun p => (hdepth p).trans (hdepth₁ p)⟩
    obtain ⟨s, hrun, ranges', h', hdepth⟩ := foldlM_total (s := (CrtMode.none, tree)) _ hloop ⟨ranges, h, fun _ => rfl⟩
      (along_of_forall (fun _ _ => trivial) _ (decoder.disasm crtBeginFunction))
    exact ⟨s.2, ranges', by simp [disassembleCrtBeginFunctions, hrun], h', hdepth⟩

end Steps

/-! ## The result -/

/-- The points at which the section is split. -/
def splitPoints (decoder : Decoder) (elfMap : ElfMap) : List Address :=
  elfMap.entries ++ targets (decoder.disasm elfMap.text)

/-- A part of the section between two neighbouring points. -/
def IsPart (decoder : Decoder) (elfMap : ElfMap) (f : Range) : Prop :=
  IsPiece elfMap.text.start.toNat elfMap.text.getEnd.toNat (pointSet (splitPoints decoder elfMap)) f.start.toNat
    f.getEnd.toNat

/-- The known functions inside the section. -/
def ElfMap.knownInside (elfMap : ElfMap) : List Range := elfMap.known.filter elfMap.text.containsRange

/-- When the functions come out right: the section and the known functions are not empty, no byte is in two known
functions, every part of the section has padding in front of its end or else its code is in known functions, and no
part consists of the padding that it ends in. -/
structure Separable (decoder : Decoder) (elfMap : ElfMap) : Prop where
  text : elfMap.text.Proper
  known : ∀ r ∈ elfMap.knownInside, r.Proper
  apart : elfMap.knownInside.Pairwise Apart
  kept : ∀ f, IsPart decoder elfMap f →
    (∃ r, IsPadding elfMap.text (decoder.disasm elfMap.text) r ∧ r.start ≤ f.getEnd) ∨
      ∀ p, IsCode (decoder.disasm elfMap.text) p → f.contains p = true → ∃ r ∈ elfMap.knownInside, r.contains p = true
  fits : ∀ f, IsPart decoder elfMap f → ∀ r, IsPadding elfMap.text (decoder.disasm elfMap.text) r →
    r.start ≤ f.getEnd → f.getEnd ≤ r.getEnd → f.start < r.start

variable {decoder : Decoder} {elfMap : ElfMap} {fuel : Nat}

variable (decoder) in
/-- The first steps: the parts of the section, and the padding. -/
theorem parts_spec (hfuel : addDepth ≤ fuel) (hproper : elfMap.text.Proper) :
    ∃ tree₁ tree₂ splitRanges functionPadding cuts runs, addTree fuel (make elfMap.text) elfMap.text = some tree₁ ∧
      elfMap.entries.foldlM (splitTree fuel) tree₁ = some tree₂ ∧
      firstDisassemblyPass fuel (decoder.disasm elfMap.text) elfMap.text tree₂ (make elfMap.text) =
        some (splitRanges, functionPadding) ∧
      (Keeps elfMap.text splitRanges cuts ∧ (∀ f, f ∈ cuts ↔ IsPart decoder elfMap f) ∧
        ∀ p, depthAt p cuts = if elfMap.text.start.toNat ≤ p ∧ p < elfMap.text.getEnd.toNat then 1 else 0) ∧
      Keeps elfMap.text functionPadding runs ∧
      (∀ r, r ∈ runs ↔ IsPadding elfMap.text (decoder.disasm elfMap.text) r) ∧
      (runs.Pairwise fun q r => r.getEnd.toNat < q.start.toNat) ∧
      ∀ p, IsCode (decoder.disasm elfMap.text) p → ∀ r ∈ runs, ¬ r.contains p = true := by
  obtain ⟨tree₁, hadd, h₁⟩ := addTree_spec hfuel (keeps_make elfMap.text) hproper
    (Range.containsRange_iff.2 ⟨le_rfl, le_rfl⟩)
  have hdiv₁ : Divides elfMap.text (pointSet []) [elfMap.text] := by
    have hempty : pointSet [] = ∅ := by
      ext n
      simp [pointSet]
    rw [hempty]
    exact partitions_single ⟨rfl, rfl⟩ (Range.proper_iff.1 hproper)
  obtain ⟨tree₂, hentries, cuts₂, h₂, hdiv₂⟩ := foldlM_total_done
    (fun done tree => ∃ cuts, Keeps elfMap.text tree cuts ∧ Divides elfMap.text (pointSet done) cuts)
    (fun done point rest tree _ hstate => by
      obtain ⟨cuts, h, hdiv⟩ := hstate
      obtain ⟨tree', cuts', hsplit, h', hdiv'⟩ := splitTree_spec hfuel h hdiv point
      exact ⟨tree', hsplit, cuts', h', hdiv'⟩)
    (s := tree₁) (l := elfMap.entries) ⟨[elfMap.text], h₁, hdiv₁⟩
  obtain ⟨splitRanges, functionPadding, cuts, runs, hpass, ⟨hcuts, hdiv⟩, hpad⟩ :=
    firstDisassemblyPass_spec decoder hfuel hproper h₂ hdiv₂
  refine ⟨tree₁, tree₂, splitRanges, functionPadding, cuts, runs, hadd, hentries, hpass, ⟨hcuts, fun f => ?_, hdiv.once⟩,
    hpad⟩
  rw [IsPart, splitPoints, hdiv.isPiece_iff]
  constructor
  · exact fun hf => ⟨f, hf, rfl, rfl⟩
  · rintro ⟨x, hx, hstart, hend⟩
    rwa [← range_eq hstart hend]

/-- The known functions, as they are collected. -/
theorem known_spec (hfuel : addDepth ≤ fuel) (hknown : ∀ r ∈ elfMap.knownInside, r.Proper) :
    ∃ tree, elfMap.known.foldlM (addTree fuel) (make elfMap.text) = some tree ∧
      Keeps elfMap.text tree elfMap.knownInside := by
  obtain ⟨tree, hrun, h⟩ := (keeps_make elfMap.text).addAll hfuel
    fun r hr hin => hknown r (List.mem_filter.2 ⟨hr, hin⟩)
  refine ⟨tree, hrun, h.of_perm ?_⟩
  rw [List.append_nil]
  exact List.reverse_perm _

/-- The ranges of the functions of the section, and how many of them an address is in. -/
theorem linearDisassembly_spec (hfuel : addDepth ≤ fuel) (hproper : elfMap.text.Proper)
    (hknown : ∀ r ∈ elfMap.knownInside, r.Proper)
    (hfits : ∀ f, IsPart decoder elfMap f → ∀ r, IsPadding elfMap.text (decoder.disasm elfMap.text) r →
      r.start ≤ f.getEnd → f.getEnd ≤ r.getEnd → f.start < r.start) :
    ∃ tree stored, linearDisassembly fuel decoder elfMap = some (stored ++ (elfMap.init.toList ++ elfMap.fini.toList)) ∧
      Keeps elfMap.text tree stored ∧
      ∀ p, (0 < depthAt p elfMap.knownInside → depthAt p stored = depthAt p elfMap.knownInside) ∧
        (depthAt p elfMap.knownInside = 0 → depthAt p stored ≤ 1) ∧
        ∀ q : Address, q.toNat = p → IsCode (decoder.disasm elfMap.text) q → depthAt p elfMap.knownInside = 0 →
          ∀ f, IsPart decoder elfMap f → f.contains q = true → (depthAt p stored = 1 ↔
            ∃ r, IsPadding elfMap.text (decoder.disasm elfMap.text) r ∧ r.start ≤ f.getEnd) := by
  obtain ⟨known, hcollect, hkeepsKnown⟩ := known_spec hfuel hknown
  obtain ⟨tree₁, tree₂, splitRanges, functionPadding, cuts, runs, hadd, hentries, hpass, ⟨hcuts, hparts, honce⟩, hpad,
    hruns, hgap, hcode⟩ := parts_spec decoder hfuel hproper
  have hwithin : ∀ f ∈ splitRanges.inStartOrderTraversal, _ := fun f hf => hcuts.within (hcuts.perm.mem_iff.1 hf)
  obtain ⟨tree₃, shrunk, hshrink, h₃, hdepth₃⟩ := shrinkAll_spec hfuel hpad hgap hwithin (keeps_make elfMap.text) <| by
    intro f hf r hr hle hge
    rw [← BitVec.lt_def]
    exact hfits f ((hparts f).1 (hcuts.perm.mem_iff.1 hf)) r ((hruns r).1 hr) (BitVec.le_def.2 hle) (BitVec.le_def.2 hge)
  rw [List.append_nil] at h₃
  obtain ⟨tree₄, left, hremove, h₄, hdepth₄⟩ := removeAll_spec hfuel hpad hgap
    (fun k hk => hkeepsKnown.bounded.ok.proper k hk) h₃
  obtain ⟨tree₅, hunion, h₅⟩ := h₄.addAll hfuel fun k hk _ => hkeepsKnown.bounded.ok.proper k hk
  have hall : known.inStartOrderTraversal.filter elfMap.text.containsRange = known.inStartOrderTraversal :=
    List.filter_eq_self.2 fun k hk => hkeepsKnown.stored.inside k hk
  rw [hall] at h₅
  obtain ⟨tree₆, ranges, hcrt, h₆, hdepth₆⟩ := crtBegin_spec hfuel decoder elfMap.entryPoint h₅
  refine ⟨tree₆, tree₆.inStartOrderTraversal, ?_, h₆.stored, fun p => ?_⟩
  · have hunion' : tree₄.unionWith fuel known = some tree₅ := hunion
    simp only [linearDisassembly, hcollect, hadd, hentries, hpass, hshrink, hremove, hunion', hcrt,
      Option.bind_eq_bind, Option.bind_some, Option.pure_def]
  have hknownDepth := hkeepsKnown.depthAt_eq p
  obtain ⟨hle₃, heq₃⟩ := hdepth₃ p
  obtain ⟨hle₄, hin₄, hout₄⟩ := hdepth₄ p
  rw [hknownDepth] at hin₄ hout₄
  have hle₂ : depthAt p splitRanges.inStartOrderTraversal ≤ 1 := by
    rw [hcuts.depthAt_eq, honce]
    split_ifs <;> omega
  have hsum : depthAt p tree₆.inStartOrderTraversal = depthAt p elfMap.knownInside + depthAt p left := by
    rw [h₆.depthAt_eq, hdepth₆, depthAt_append, depthAt_perm (List.reverse_perm _), hknownDepth]
  rw [hsum]
  refine ⟨fun hpos => by rw [hin₄ hpos, Nat.add_zero], fun hzero => by omega, ?_⟩
  rintro q rfl hq hzero f hf hqf
  have hno : ∀ r ∈ runs, ¬ (r.start.toNat ≤ q.toNat ∧ q.toNat < r.getEnd.toNat) :=
    fun r hr hin => hcode q hq r hr (Range.contains_iff.2 hin)
  have hone : depthAt q.toNat (splitRanges.inStartOrderTraversal.filter (hasPadding runs)) =
      if hasPadding runs f then 1 else 0 :=
    depth_filter_eq hle₂ (hcuts.perm.mem_iff.2 ((hparts f).2 hf)) (Range.contains_iff.1 hqf) (hasPadding runs)
  rw [hzero, Nat.zero_add, hout₄ hzero hno, heq₃ hno, hone]
  have hpadding : hasPadding runs f = true ↔ ∃ r, IsPadding elfMap.text (decoder.disasm elfMap.text) r ∧
      r.start ≤ f.getEnd := by
    rw [hasPadding_iff]
    exact exists_congr fun r => and_congr (hruns r) BitVec.le_def.symm
  rw [← hpadding]
  split_ifs with hhas <;> simp [hhas]

/-- A run that ends has found the section and the known functions not empty, and every part longer than its padding. -/
theorem fits_of_linearDisassembly (hfuel : addDepth ≤ fuel) {ranges : List Range}
    (hrun : linearDisassembly fuel decoder elfMap = some ranges) :
    elfMap.text.Proper ∧ (∀ r ∈ elfMap.knownInside, r.Proper) ∧
      ∀ f, IsPart decoder elfMap f → ∀ r, IsPadding elfMap.text (decoder.disasm elfMap.text) r →
        r.start ≤ f.getEnd → f.getEnd ≤ r.getEnd → f.start < r.start := by
  simp only [linearDisassembly, Option.bind_eq_bind, Option.bind_eq_some_iff] at hrun
  obtain ⟨known, hcollect, tree₁, hadd, tree₂, hentries, ⟨splitRanges, functionPadding⟩, hpass, tree₃, hshrink, -⟩ := hrun
  have hproperOf : ∀ {tree tree' : Node} {r : Range} {ranges : List Range}, Keeps elfMap.text tree ranges →
      addTree fuel tree r = some tree' → elfMap.text.containsRange r = true → r.Proper := by
    intro tree tree' r ranges h hadd hin
    by_contra hr
    rw [addTree, add_eq_none hr fuel h.bounded hin] at hadd
    cases hadd
  have hproper : elfMap.text.Proper :=
    hproperOf (keeps_make elfMap.text) hadd (Range.containsRange_iff.2 ⟨le_rfl, le_rfl⟩)
  refine ⟨hproper, fun r hr => ?_, fun f hf r hr hle hge => ?_⟩
  · obtain ⟨hr, hin⟩ := List.mem_filter.1 hr
    refine forall_of_foldlM (fun tree => ∃ ranges, Keeps elfMap.text tree ranges)
      (Q := fun r => elfMap.text.containsRange r = true → r.Proper) ?_ ⟨[], keeps_make elfMap.text⟩ hcollect r hr hin
    rintro tree r tree' ⟨ranges, h⟩ hstep
    obtain ⟨⟨tree'', result⟩, hadd', rfl⟩ := Option.map_eq_some_iff.1 hstep
    exact ⟨h.add_some hfuel hadd', hproperOf h hstep⟩
  · obtain ⟨tree₁', tree₂', splitRanges', functionPadding', cuts, runs, hadd', hentries', hpass', ⟨hcuts, hparts, -⟩, hpad,
      hruns, hgap, -⟩ := parts_spec decoder hfuel hproper
    obtain rfl := Option.some.inj (hadd.symm.trans hadd')
    obtain rfl := Option.some.inj (hentries.symm.trans hentries')
    obtain ⟨rfl, rfl⟩ := Prod.mk.inj (Option.some.inj (hpass.symm.trans hpass'))
    have hwithin : ∀ f ∈ splitRanges.inStartOrderTraversal, _ := fun f hf => hcuts.within (hcuts.perm.mem_iff.1 hf)
    have hfits := fits_of_shrinkAll hfuel hpad hgap hwithin (keeps_make elfMap.text) hshrink f
      (hcuts.perm.mem_iff.2 ((hparts f).2 hf))
    exact BitVec.lt_def.2 (hfits r ((hruns r).2 hr) (BitVec.le_def.1 hle) (BitVec.le_def.1 hge))

/-- A byte of code is in the section, and in a part of it. -/
theorem exists_part (hproper : elfMap.text.Proper) {p : Address} (hp : IsCode (decoder.disasm elfMap.text) p) :
    elfMap.text.contains p = true ∧ ∃ f, IsPart decoder elfMap f ∧ f.contains p = true := by
  obtain ⟨ins, hins, -, hin⟩ := hp
  obtain ⟨before, after, heq⟩ := List.append_of_mem hins
  obtain ⟨hlo, hhi, -, hend⟩ := range_of_eq decoder hproper heq
  rw [Range.contains_iff] at hin
  have htext : elfMap.text.start.toNat ≤ p.toNat ∧ p.toNat < elfMap.text.getEnd.toNat := by omega
  obtain ⟨-, -, -, -, cuts, -, -, -, -, ⟨-, hparts, honce⟩, -⟩ := parts_spec decoder le_rfl hproper
  obtain ⟨f, hf, hfp⟩ := (exists_contains_iff p).2 (by rw [honce, if_pos htext]; exact Nat.one_pos)
  exact ⟨Range.contains_iff.2 htext, f, (hparts f).1 hf, hfp⟩

/-- What is outside the section is apart from the functions in it. -/
theorem special_apart {tree : Node} {stored : List Range} (h : Keeps elfMap.text tree stored) :
    ((stored ++ (elfMap.init.toList ++ elfMap.fini.toList)).Pairwise Apart ↔ stored.Pairwise Apart) ∧
      ∀ p, elfMap.text.contains p = true →
        (stored ++ (elfMap.init.toList ++ elfMap.fini.toList)).countP (·.contains p) = depthAt p.toNat stored := by
  have hspecial := List.pairwise_cons.1 elfMap.apart
  refine ⟨?_, fun p hp => ?_⟩
  · rw [List.pairwise_append]
    refine ⟨fun hall => hall.1, fun hstored => ⟨hstored, hspecial.2, fun q hq r hr => ?_⟩⟩
    have hin := h.within hq
    have hr := hspecial.1 r hr
    rw [IntervalTree.Apart, ← Bool.not_eq_true, Range.overlaps_iff] at hr ⊢
    omega
  · rw [List.countP_append, countP_contains, Nat.add_eq_left, List.countP_eq_zero]
    intro r hr hin
    have hr := hspecial.1 r hr
    rw [IntervalTree.Apart, ← Bool.not_eq_true, Range.overlaps_iff] at hr
    rw [Range.contains_iff] at hp hin
    omega

/-- The functions are apart, and every byte of code is in exactly one of them, exactly when the section is separable. -/
theorem linearDisassembly_exact_iff (decoder : Decoder) (elfMap : ElfMap) (fuel : Nat) (hfuel : addDepth ≤ fuel) :
    (∃ ranges, linearDisassembly fuel decoder elfMap = some ranges ∧ ranges.Pairwise Apart ∧
        ∀ p, IsCode (decoder.disasm elfMap.text) p → ranges.countP (·.contains p) = 1) ↔
      Separable decoder elfMap := by
  constructor
  · rintro ⟨ranges, hrun, hapart, honce⟩
    obtain ⟨hproper, hknown, hfits⟩ := fits_of_linearDisassembly hfuel hrun
    obtain ⟨tree, stored, hrun', hkeeps, hdepth⟩ := linearDisassembly_spec hfuel hproper hknown hfits
    obtain rfl := Option.some.inj (hrun'.symm.trans hrun)
    obtain ⟨hiff, hcount⟩ := special_apart hkeeps
    have hle := (apart_iff_depth hkeeps.proper).1 (hiff.1 hapart)
    refine ⟨hproper, hknown, (apart_iff_depth hknown).2 fun p => ?_, fun f hf => ?_, hfits⟩
    · rcases Nat.eq_zero_or_pos (depthAt p elfMap.knownInside) with hzero | hpos
      · rw [hzero]
        exact Nat.zero_le 1
      · rw [← (hdepth p).1 hpos]
        exact hle p
    · refine or_iff_not_imp_left.2 fun hnone p hp hfp => ?_
      -- a byte in no known function is lost with its part
      by_contra hno
      have hzero : depthAt p.toNat elfMap.knownInside = 0 := Nat.eq_zero_of_not_pos fun hpos =>
        hno ((exists_contains_iff p).2 hpos)
      have hone := honce p hp
      rw [hcount p (exists_part hproper hp).1] at hone
      exact hnone (((hdepth p.toNat).2.2 p rfl hp hzero f hf hfp).1 hone)
  · intro h
    obtain ⟨tree, stored, hrun, hkeeps, hdepth⟩ := linearDisassembly_spec hfuel h.text h.known h.fits
    obtain ⟨hiff, hcount⟩ := special_apart hkeeps
    have hknown := (apart_iff_depth h.known).1 h.apart
    refine ⟨_, hrun, hiff.2 ((apart_iff_depth hkeeps.proper).2 fun p => ?_), fun p hp => ?_⟩
    · rcases Nat.eq_zero_or_pos (depthAt p elfMap.knownInside) with hzero | hpos
      · exact (hdepth p).2.1 hzero
      · rw [(hdepth p).1 hpos]
        exact hknown p
    · obtain ⟨htext, f, hf, hfp⟩ := exists_part h.text hp
      rw [hcount p htext]
      rcases Nat.eq_zero_or_pos (depthAt p.toNat elfMap.knownInside) with hzero | hpos
      · refine ((hdepth p.toNat).2.2 p rfl hp hzero f hf hfp).2 ((h.kept f hf).resolve_right fun hall => ?_)
        have hin := (exists_contains_iff p).1 (hall p hp hfp)
        omega
      · rw [(hdepth p.toNat).1 hpos]
        have := hknown p.toNat
        omega

/-- A ret of one byte, and a nop of three bytes; `count` of them are decoded. -/
def sampleInsns (count : Nat) : List Insn := [⟨4096, 1, .ret, false, []⟩, ⟨4097, 3, .nop, false, []⟩].take count

def sampleDecoder (count : Nat) : Decoder where
  disasm r := if r = ⟨4096, 4⟩ then sampleInsns count else []
  address r before ins after h := by
    split at h
    · next hr =>
      subst hr
      have hpre : before ++ [ins] <+: [⟨4096, 1, .ret, false, []⟩, ⟨4097, 3, .nop, false, []⟩] :=
        List.IsPrefix.trans ⟨after, by rw [List.append_assoc]; exact h.symm⟩ (List.take_prefix count _)
      match before with
      | [] => simp_all [extent, List.cons_prefix_cons]
      | [x] => simp_all [extent, List.cons_prefix_cons]
      | x :: y :: before => simp [List.cons_prefix_cons] at hpre
    · simp at h
  size_pos r ins hins := by
    split at hins
    · have hmem := List.mem_of_mem_take hins
      simp only [List.mem_cons, List.not_mem_nil, or_false] at hmem
      rcases hmem with rfl | rfl <;> decide
    · cases hins
  within r := by
    split
    · next hr =>
      subst hr
      match count with
      | 0 => decide
      | 1 => decide
      | n + 2 => simp [sampleInsns]
    · exact Nat.zero_le _

def sampleElf : ElfMap := ⟨⟨4096, 4⟩, none, none, [], [], 4096, [], none, List.pairwise_singleton _ _⟩

theorem linearDisassembly_exact_sample : Separable (sampleDecoder 2) sampleElf := by
  refine (linearDisassembly_exact_iff (sampleDecoder 2) sampleElf 65 (by decide)).1 ⟨[⟨4096, 1⟩], by decide +kernel,
    List.pairwise_singleton _ _, ?_⟩
  rintro p ⟨ins, hins, hcode, hp⟩
  have hmem : ins = ⟨4096, 1, .ret, false, []⟩ ∨ ins = ⟨4097, 3, .nop, false, []⟩ := by
    simpa [sampleDecoder, sampleElf, sampleInsns] using hins
  rcases hmem with rfl | rfl
  · simp only [List.countP_cons, List.countP_nil]
    rw [show (⟨4096, 1⟩ : Range).contains p = true from hp]
    rfl
  · cases hcode

/-- Without a nop the only part of the section is left out. -/
theorem part_without_padding : ¬ ∀ decoder elfMap fuel, addDepth ≤ fuel →
    ∃ ranges, linearDisassembly fuel decoder elfMap = some ranges ∧ ranges.Pairwise Apart ∧
      ∀ p, IsCode (decoder.disasm elfMap.text) p → ranges.countP (·.contains p) = 1 := by
  intro hclaim
  obtain ⟨ranges, hrun, -, honce⟩ := hclaim (sampleDecoder 1) sampleElf 65 (by decide)
  have hnone : linearDisassembly 65 (sampleDecoder 1) sampleElf = some [] := by decide +kernel
  obtain rfl := Option.some.inj (hnone.symm.trans hrun)
  have hcode : IsCode ((sampleDecoder 1).disasm sampleElf.text) 4096 :=
    ⟨⟨4096, 1, .ret, false, []⟩, by simp [sampleDecoder, sampleElf, sampleInsns], rfl, by decide⟩
  exact absurd (honce 4096 hcode) (by decide)

end Egalito.Disasm
