import Egalito.Disasm.LinearDisassembly
import Egalito.IntervalTree.Depth
import Egalito.Lib.Rows
/-!
# The first pass

`firstDisassemblyPass` divides the section at the call targets, and notes each
longest row of nops. A row is noted where it stands when an instruction is
behind it; the row at the end is noted at the end of the section, also when the
decoding stopped in front of that.
-/

open Egalito.Lib Egalito.IntervalTree

namespace Egalito.Disasm

/-! ## Code and padding -/

def Insn.isNop (ins : Insn) : Bool := ins.id = .nop

def Insn.range (ins : Insn) : Range := ⟨ins.address, ins.size⟩

/-- The byte belongs to an instruction that is not a nop. -/
def IsCode (insns : List Insn) (p : Address) : Prop := ∃ ins ∈ insns, ins.isNop = false ∧ ins.range.contains p = true

/-- A longest row of nops, where it is noted. -/
def IsPadding (text : Range) (insns : List Insn) (r : Range) : Prop :=
  ∃ before row after, IsRow Insn.isNop insns before row after ∧
    r = ⟨if after = [] then text.getEnd - extent row else text.start + extent before, extent row⟩

def targets (insns : List Insn) : List Address := insns.filterMap shouldSplitFunctionDueTo

/-- The addresses, as points to divide at. -/
def pointSet (points : List Address) : Set Nat := {n | ∃ p ∈ points, p.toNat = n}

theorem pointSet_concat (points : List Address) (p : Address) :
    pointSet (points ++ [p]) = insert p.toNat (pointSet points) := by
  ext n
  simp only [pointSet, Set.mem_ofPred_eq, List.mem_append, List.mem_singleton, or_and_right, exists_or, exists_eq_left,
    Set.mem_insert_iff]
  exact or_comm.trans (or_congr_left eq_comm)

/-! ## Where the instructions are -/

/-- The bytes of the instructions, as a number. -/
def width (insns : List Insn) : Nat := (insns.map (·.size.toNat)).sum

@[simp] theorem width_append (l l' : List Insn) : width (l ++ l') = width l + width l' := by
  simp [width]

theorem extent_append (l l' : List Insn) : extent (l ++ l') = extent l + extent l' := by
  simp [extent]

theorem toNat_extent {l : List Insn} (h : width l < 2 ^ 64) : (extent l).toNat = width l := by
  induction l with
  | nil => rfl
  | cons ins l ih =>
    rw [width, List.map_cons, List.sum_cons, ← width] at h ⊢
    rw [extent, List.map_cons, List.sum_cons, ← extent, BitVec.toNat_add, ih (by omega), Nat.mod_eq_of_lt h]

theorem width_pos {l : List Insn} (hpos : ∀ ins ∈ l, 0 < ins.size.toNat) (hne : l ≠ []) : 0 < width l := by
  cases l with
  | nil => exact absurd rfl hne
  | cons ins l =>
    rw [width, List.map_cons, List.sum_cons]
    exact Nat.add_pos_left (hpos ins List.mem_cons_self) _

section Decoded

variable (decoder : Decoder) {text : Range} (hproper : text.Proper)

include hproper

theorem getEnd_eq : text.getEnd.toNat = text.start.toNat + text.size.toNat := by
  rw [Range.getEnd, BitVec.toNat_add, Nat.mod_eq_of_lt hproper.2]

/-- The position behind some of the instructions. -/
theorem toNat_position {l : List Insn} (hl : l <+: decoder.disasm text) :
    (text.start + extent l).toNat = text.start.toNat + width l ∧
      text.start.toNat + width l ≤ text.getEnd.toNat ∧ (extent l).toNat = width l := by
  obtain ⟨rest, hrest⟩ := hl
  have hwithin : width (decoder.disasm text) ≤ text.size.toNat := decoder.within text
  rw [← hrest, width_append] at hwithin
  have hlt := hproper.2
  have hextent := toNat_extent (l := l) (by omega)
  rw [getEnd_eq hproper, BitVec.toNat_add, hextent, Nat.mod_eq_of_lt (by omega)]
  exact ⟨rfl, by omega, rfl⟩

/-- There is an open row when nops have been counted. -/
theorem openRow_ne_nil {done : List Insn} (hdone : done <+: decoder.disasm text) :
    (extent (done.rtakeWhile Insn.isNop) ≠ 0 ↔ done.rtakeWhile Insn.isNop ≠ []) ∧
      width (done.rdropWhile Insn.isNop) + (extent (done.rtakeWhile Insn.isNop)).toNat = width done ∧
        (done.rtakeWhile Insn.isNop ≠ [] → width (done.rdropWhile Insn.isNop) < width done) := by
  have hsplit : done.rdropWhile Insn.isNop ++ done.rtakeWhile Insn.isNop = done := List.rdropWhile_append_rtakeWhile
  have hwidth : width done = width (done.rdropWhile Insn.isNop) + width (done.rtakeWhile Insn.isNop) := by
    rw [← width_append, hsplit]
  have hle := (toNat_position decoder hproper hdone).2.1
  have hlt := text.getEnd.isLt
  have hpos : done.rtakeWhile Insn.isNop ≠ [] → 0 < width (done.rtakeWhile Insn.isNop) := width_pos fun ins hins =>
    decoder.size_pos text ins (hdone.subset ((List.rtakeWhile_suffix _ _).subset hins))
  have hextent := toNat_extent (l := done.rtakeWhile Insn.isNop) (by omega)
  refine ⟨⟨fun h hnil => h (by rw [hnil]; rfl), fun hne h => ?_⟩, by rw [hextent, hwidth], fun hne => ?_⟩
  · rw [← BitVec.toNat_inj, hextent] at h
    exact (hpos hne).ne' h
  · have := hpos hne
    omega

/-- An instruction takes the bytes behind those in front of it. -/
theorem range_of_eq {before after : List Insn} {ins : Insn} (h : decoder.disasm text = before ++ ins :: after) :
    ins.range.start.toNat = text.start.toNat + width before ∧
      ins.range.getEnd.toNat = text.start.toNat + width before + ins.size.toNat ∧ 0 < ins.size.toNat ∧
        text.start.toNat + width before + ins.size.toNat ≤ text.getEnd.toNat := by
  have haddress := decoder.address text before ins after h
  have hbefore := toNat_position decoder hproper ⟨ins :: after, h.symm⟩
  have hbehind := toNat_position decoder hproper
    (⟨after, by rw [h, List.append_assoc]; rfl⟩ : before ++ [ins] <+: _)
  have hwidth : width (before ++ [ins]) = width before + ins.size.toNat := by simp [width]
  have hextent : extent (before ++ [ins]) = extent before + ins.size := by simp [extent]
  rw [hwidth, hextent, ← BitVec.add_assoc] at hbehind
  rw [Insn.range, Range.getEnd, haddress]
  exact ⟨hbefore.1, by rw [hbehind.1, Nat.add_assoc], decoder.size_pos text ins (by rw [h]; simp), by omega⟩

end Decoded

/-! ## The pass -/

/-- The rows that are noted when some of the instructions are done. -/
structure Noted (text : Range) (done : List Insn) (functionPadding : Node) (nopBytes : Address) (runs : List Range) :
    Prop where
  keeps : Keeps text functionPadding runs
  mem_iff : ∀ r, r ∈ runs ↔ ∃ before row, ClosedRow Insn.isNop done before row ∧
    r = ⟨text.start + extent before, extent row⟩
  gapped : runs.Pairwise fun q r => r.getEnd.toNat < q.start.toNat
  before_open : ∀ r ∈ runs, r.getEnd.toNat < text.start.toNat + width (done.rdropWhile Insn.isNop)
  code : ∀ p, IsCode done p → p.toNat < text.start.toNat + width (done.rdropWhile Insn.isNop) ∧
    ∀ r ∈ runs, ¬ r.contains p = true
  nopBytes_eq : nopBytes = extent (done.rtakeWhile Insn.isNop)

theorem isCode_concat {done : List Insn} {ins : Insn} {p : Address} : IsCode (done ++ [ins]) p ↔
    IsCode done p ∨ ins.isNop = false ∧ ins.range.contains p = true := by
  simp only [IsCode, List.mem_append, List.mem_singleton, or_and_right, exists_or, exists_eq_left]

section Steps

variable {decoder : Decoder} {text : Range} {done rest : List Insn} {ins : Insn} {functionPadding : Node}
  {nopBytes : Address} {runs : List Range}

theorem Noted.nop (h : Noted text done functionPadding nopBytes runs) (hins : ins.isNop = true) :
    Noted text (done ++ [ins]) functionPadding (nopBytes + ins.size) runs := by
  have hdrop := List.rdropWhile_concat_pos Insn.isNop done ins hins
  refine ⟨h.keeps, fun r => ?_, h.gapped, ?_, ?_, ?_⟩
  · rw [h.mem_iff]
    refine exists_congr fun before => exists_congr fun row => and_congr_left fun _ => ?_
    rw [closedRow_concat, hins]
    simp
  · rw [hdrop]
    exact h.before_open
  · intro p hp
    rw [isCode_concat, hins] at hp
    rw [hdrop]
    exact h.code p (hp.resolve_right (by simp))
  · rw [List.rtakeWhile_concat_pos Insn.isNop done ins hins, extent_append, h.nopBytes_eq]
    simp [extent]

/-- The open row, as it is noted in front of an instruction. -/
theorem openRow_spec (hproper : text.Proper) (heq : decoder.disasm text = done ++ ins :: rest) :
    ∃ r : Range, r = ⟨text.start + extent (done.rdropWhile Insn.isNop), extent (done.rtakeWhile Insn.isNop)⟩ ∧
      ins.address - extent (done.rtakeWhile Insn.isNop) = r.start ∧
      r.start.toNat = text.start.toNat + width (done.rdropWhile Insn.isNop) ∧
      r.getEnd.toNat = text.start.toNat + width done ∧
      width (done.rdropWhile Insn.isNop) ≤ width done := by
  have hsplit : done.rdropWhile Insn.isNop ++ done.rtakeWhile Insn.isNop = done := List.rdropWhile_append_rtakeWhile
  have hdone : done <+: decoder.disasm text := ⟨ins :: rest, heq.symm⟩
  have hextent : extent done = extent (done.rdropWhile Insn.isNop) + extent (done.rtakeWhile Insn.isNop) := by
    rw [← extent_append, hsplit]
  have hwidth : width done = width (done.rdropWhile Insn.isNop) + width (done.rtakeWhile Insn.isNop) := by
    rw [← width_append, hsplit]
  refine ⟨_, rfl, ?_, (toNat_position decoder hproper ((List.rdropWhile_prefix _ _).trans hdone)).1, ?_, by omega⟩
  · rw [decoder.address text done ins rest heq, hextent, ← BitVec.add_assoc, BitVec.add_sub_cancel]
  · rw [Range.getEnd, BitVec.add_assoc, ← hextent, (toNat_position decoder hproper hdone).1]

/-- What an instruction that is not a nop completes. -/
theorem Noted.next (h : Noted text done functionPadding nopBytes runs) (hproper : text.Proper)
    (heq : decoder.disasm text = done ++ ins :: rest) (hins : ins.isNop = false) {functionPadding' : Node}
    {runs' : List Range} (hkeeps : Keeps text functionPadding' runs')
    (hruns : (done.rtakeWhile Insn.isNop = [] ∧ runs' = runs) ∨ (done.rtakeWhile Insn.isNop ≠ [] ∧
      runs' = ⟨text.start + extent (done.rdropWhile Insn.isNop), extent (done.rtakeWhile Insn.isNop)⟩ :: runs)) :
    Noted text (done ++ [ins]) functionPadding' 0 runs' := by
  obtain ⟨r₀, hr₀, -, hstart, hend, hle⟩ := openRow_spec hproper heq
  obtain ⟨hlo, hhi, hsize, -⟩ := range_of_eq decoder hproper heq
  rw [← hr₀] at hruns
  have hdrop : width ((done ++ [ins]).rdropWhile Insn.isNop) = width done + ins.size.toNat := by
    rw [List.rdropWhile_concat_neg Insn.isNop done ins (by simp [hins])]
    simp [width]
  -- the rows noted before end in front of the open one
  have hmem : ∀ r ∈ runs', r = r₀ ∨ r ∈ runs := by
    rcases hruns with ⟨-, rfl⟩ | ⟨-, rfl⟩
    · exact fun r hr => .inr hr
    · exact fun r hr => List.mem_cons.1 hr
  refine ⟨hkeeps, fun r => ?_, ?_, fun r hr => ?_, fun p hp => ?_, ?_⟩
  · have hclosed : (∃ before row, ClosedRow Insn.isNop (done ++ [ins]) before row ∧
        r = ⟨text.start + extent before, extent row⟩) ↔
          (∃ before row, ClosedRow Insn.isNop done before row ∧ r = ⟨text.start + extent before, extent row⟩) ∨
            done.rtakeWhile Insn.isNop ≠ [] ∧ r = r₀ := by
      simp only [closedRow_concat, hins, isRow_nil_iff, or_and_right, exists_or, true_and]
      refine or_congr_right ⟨?_, fun ⟨hne, hr⟩ => ⟨_, _, ⟨hne, rfl, rfl⟩, hr.trans hr₀⟩⟩
      rintro ⟨before, row, ⟨hne, rfl, rfl⟩, hr⟩
      exact ⟨hne, hr.trans hr₀.symm⟩
    rw [hclosed, ← h.mem_iff]
    rcases hruns with ⟨hnil, rfl⟩ | ⟨hne, rfl⟩
    · simp [hnil]
    · rw [List.mem_cons, and_iff_right hne]
      exact or_comm
  · rcases hruns with ⟨-, rfl⟩ | ⟨-, rfl⟩
    · exact h.gapped
    · refine List.pairwise_cons.2 ⟨fun q hq => ?_, h.gapped⟩
      rw [hstart]
      exact h.before_open q hq
  · rw [hdrop]
    rcases hmem r hr with rfl | hr
    · omega
    · have := h.before_open r hr
      omega
  · rw [hdrop]
    rcases isCode_concat.1 hp with hp | ⟨-, hp⟩
    · obtain ⟨hlt, hno⟩ := h.code p hp
      refine ⟨by omega, fun r hr hin => ?_⟩
      rcases hmem r hr with rfl | hr
      · rw [Range.contains_iff] at hin
        omega
      · exact hno r hr hin
    · rw [Range.contains_iff] at hp
      refine ⟨by omega, fun r hr hin => ?_⟩
      rw [Range.contains_iff] at hin
      rcases hmem r hr with rfl | hr
      · omega
      · have := h.before_open r hr
        omega
  · rw [List.rtakeWhile_concat_neg Insn.isNop done ins (by simp [hins])]
    rfl

theorem noted_make (text : Range) : Noted text [] (make text) 0 [] := by
  refine ⟨keeps_make text, fun r => ?_, .nil, nofun, ?_, rfl⟩
  · refine iff_of_false List.not_mem_nil ?_
    rintro ⟨before, row, ⟨after, -, h⟩, -⟩
    have hnil := h.eq
    simp only [List.nil_eq, List.append_eq_nil_iff] at hnil
    exact h.ne_nil hnil.1.2
  · rintro p ⟨ins, hins, -⟩
    exact absurd hins List.not_mem_nil

end Steps

section Fuel

variable {decoder : Decoder} {text : Range} {done rest : List Insn} {ins : Insn} {s : PassState} {fuel : Nat}
  {points : List Address} {cuts runs : List Range} (hfuel : addDepth ≤ fuel)

include hfuel

theorem splitTree_spec {tree : Node} (h : Keeps text tree cuts) (hdiv : Divides text (pointSet points) cuts)
    (point : Address) : ∃ tree' cuts', splitTree fuel tree point = some tree' ∧ Keeps text tree' cuts' ∧
      Divides text (pointSet (points ++ [point])) cuts' := by
  obtain ⟨tree', result, cuts', hsplit, h', hdiv'⟩ := h.splitAt_divides hfuel hdiv point
  refine ⟨tree', cuts', by rw [splitTree, hsplit, Option.map_some], h', ?_⟩
  rwa [pointSet_concat]

theorem addTree_spec {tree : Node} {ranges : List Range} {r : Range} (h : Keeps text tree ranges) (hr : r.Proper)
    (hin : text.containsRange r = true) : ∃ tree', addTree fuel tree r = some tree' ∧ Keeps text tree' (r :: ranges) := by
  obtain ⟨tree', hadd, h'⟩ := h.add hfuel fun _ => hr
  rw [if_pos hin] at h'
  exact ⟨tree', by rw [addTree, hadd, Option.map_some], h'⟩

theorem splitDueTo_spec {tree : Node} (h : Keeps text tree cuts)
    (hdiv : Divides text (pointSet (points ++ targets done)) cuts) (ins : Insn) :
    ∃ tree' cuts', splitDueTo fuel tree ins = some tree' ∧ Keeps text tree' cuts' ∧
      Divides text (pointSet (points ++ targets (done ++ [ins]))) cuts' := by
  unfold splitDueTo
  rw [targets, List.filterMap_append, ← targets, List.filterMap_cons, List.filterMap_nil]
  cases htarget : shouldSplitFunctionDueTo ins with
  | none => exact ⟨tree, cuts, rfl, h, by simpa using hdiv⟩
  | some target =>
    rw [← List.append_assoc]
    exact splitTree_spec hfuel h hdiv target

/-- One round of the pass. -/
theorem passStep_spec (hproper : text.Proper) (heq : decoder.disasm text = done ++ ins :: rest)
    (hsplit : Keeps text s.splitRanges cuts) (hdiv : Divides text (pointSet (points ++ targets done)) cuts)
    (hnoted : Noted text done s.functionPadding s.nopBytes runs) :
    ∃ s' cuts' runs', passStep fuel s ins = some s' ∧ Keeps text s'.splitRanges cuts' ∧
      Divides text (pointSet (points ++ targets (done ++ [ins]))) cuts' ∧
        Noted text (done ++ [ins]) s'.functionPadding s'.nopBytes runs' := by
  obtain ⟨tree', cuts', htree, hsplit', hdiv'⟩ := splitDueTo_spec hfuel hsplit hdiv ins
  unfold passStep
  rw [htree, Option.bind_eq_bind, Option.bind_some]
  by_cases hnop : ins.id = .nop
  · rw [if_pos hnop]
    exact ⟨_, cuts', runs, rfl, hsplit', hdiv', hnoted.nop (by simp [Insn.isNop, hnop])⟩
  rw [if_neg hnop]
  have hins : ins.isNop = false := by simp [Insn.isNop, hnop]
  obtain ⟨hopen, -, hlt⟩ := openRow_ne_nil decoder hproper ⟨ins :: rest, heq.symm⟩
  rw [← hnoted.nopBytes_eq] at hopen
  by_cases hbytes : s.nopBytes ≠ 0
  · obtain ⟨r, hr, hstart, hlo, hhi, -⟩ := openRow_spec hproper heq
    have hne := hopen.1 hbytes
    have hwidth := hlt hne
    have hdone := (toNat_position decoder hproper ⟨ins :: rest, heq.symm⟩).2.1
    obtain ⟨pad', hadd, hkeeps⟩ := addTree_spec hfuel hnoted.keeps (Range.proper_iff.2 (by omega : r.start.toNat < _))
      (Range.containsRange_iff.2 (by omega))
    have hr' : (⟨ins.address - s.nopBytes, s.nopBytes⟩ : Range) = r := by
      rw [hnoted.nopBytes_eq, hstart, hr]
    rw [if_pos hbytes, hr', hadd]
    exact ⟨_, cuts', _, rfl, hsplit', hdiv', hnoted.next hproper heq hins hkeeps (.inr ⟨hne, by rw [hr]⟩)⟩
  · rw [if_neg hbytes]
    have hzero : s.nopBytes = 0 := not_not.1 hbytes
    have hnil : done.rtakeWhile Insn.isNop = [] := by
      by_contra hne
      exact hbytes (hopen.2 hne)
    exact ⟨_, cuts', runs, rfl, hsplit', hdiv', hzero ▸ hnoted.next hproper heq hins hnoted.keeps (.inl ⟨hnil, rfl⟩)⟩

omit hfuel in
/-- The rows that are noted: those with an instruction behind them, and the one at the end. -/
theorem isPadding_iff {insns : List Insn} (r : Range) : IsPadding text insns r ↔
    (∃ before row, ClosedRow Insn.isNop insns before row ∧ r = ⟨text.start + extent before, extent row⟩) ∨
      insns.rtakeWhile Insn.isNop ≠ [] ∧
        r = ⟨text.getEnd - extent (insns.rtakeWhile Insn.isNop), extent (insns.rtakeWhile Insn.isNop)⟩ := by
  constructor
  · rintro ⟨before, row, after, hrow, hr⟩
    by_cases hnil : after = []
    · subst hnil
      obtain ⟨hne, -, rfl⟩ := isRow_nil_iff.1 hrow
      exact .inr ⟨hne, by rwa [if_pos rfl] at hr⟩
    · exact .inl ⟨before, row, ⟨after, hnil, hrow⟩, by rwa [if_neg hnil] at hr⟩
  · rintro (⟨before, row, ⟨after, hne, hrow⟩, hr⟩ | ⟨hne, hr⟩)
    · exact ⟨before, row, after, hrow, by rwa [if_neg hne]⟩
    · exact ⟨_, _, [], isRow_nil_iff.2 ⟨hne, rfl, rfl⟩, by rwa [if_pos rfl]⟩

variable (decoder) in
/-- The pass divides at the targets of calls, and notes the padding. -/
theorem firstDisassemblyPass_spec (hproper : text.Proper) {tree : Node} (hsplit : Keeps text tree cuts)
    (hdiv : Divides text (pointSet points) cuts) :
    ∃ splitRanges functionPadding cuts' runs,
      firstDisassemblyPass fuel (decoder.disasm text) text tree (make text) = some (splitRanges, functionPadding) ∧
        (Keeps text splitRanges cuts' ∧ Divides text (pointSet (points ++ targets (decoder.disasm text))) cuts') ∧
          Keeps text functionPadding runs ∧ (∀ r, r ∈ runs ↔ IsPadding text (decoder.disasm text) r) ∧
            (runs.Pairwise fun q r => r.getEnd.toNat < q.start.toNat) ∧
              ∀ p, IsCode (decoder.disasm text) p → ∀ r ∈ runs, ¬ r.contains p = true := by
  obtain ⟨s, hrun, cuts', runs, hkeeps, hdiv', hnoted⟩ := foldlM_total_done (s := ⟨tree, make text, 0⟩)
    (fun done (s : PassState) => ∃ cuts runs, Keeps text s.splitRanges cuts ∧
      Divides text (pointSet (points ++ targets done)) cuts ∧ Noted text done s.functionPadding s.nopBytes runs)
    (fun done ins rest s heq ⟨cuts, runs, hsplit, hdiv, hnoted⟩ => by
      obtain ⟨s', cuts', runs', hstep, h⟩ := passStep_spec hfuel hproper heq hsplit hdiv hnoted
      exact ⟨s', hstep, cuts', runs', h⟩)
    ⟨cuts, [], hsplit, by simpa [targets] using hdiv, noted_make text⟩
  unfold firstDisassemblyPass
  rw [hrun, Option.bind_eq_bind, Option.bind_some]
  have hall : decoder.disasm text <+: decoder.disasm text := List.prefix_refl _
  obtain ⟨hopen, hbytesEq, hlt⟩ := openRow_ne_nil decoder hproper hall
  obtain ⟨-, hle, -⟩ := toNat_position decoder hproper hall
  rw [← hnoted.nopBytes_eq] at hopen hbytesEq
  by_cases hbytes : s.nopBytes ≠ 0
  · have hne := hopen.1 hbytes
    have hwidth := hlt hne
    obtain ⟨r, hr⟩ : ∃ r : Range, r = ⟨text.getEnd - s.nopBytes, s.nopBytes⟩ := ⟨_, rfl⟩
    have hend : r.getEnd = text.getEnd := by rw [hr, Range.getEnd, BitVec.sub_add_cancel]
    have hstart : text.start.toNat + width ((decoder.disasm text).rdropWhile Insn.isNop) ≤ r.start.toNat ∧
        r.start.toNat < text.getEnd.toNat := by
      rw [hr, BitVec.toNat_sub_of_le (BitVec.le_def.2 (by omega))]
      omega
    obtain ⟨pad', hadd, hpad⟩ := addTree_spec hfuel hnoted.keeps (Range.proper_iff.2 (by rw [hend]; exact hstart.2))
      (Range.containsRange_iff.2 ⟨by omega, by rw [hend]⟩)
    have hr' : (⟨text.start + text.size - s.nopBytes, s.nopBytes⟩ : Range) = r := hr.symm
    rw [if_pos hbytes, hr', hadd]
    refine ⟨_, _, cuts', r :: runs, rfl, ⟨hkeeps, hdiv'⟩, hpad, fun q => ?_, ?_, fun p hp => ?_⟩
    · rw [List.mem_cons, hnoted.mem_iff, isPadding_iff, and_iff_right hne, hr, hnoted.nopBytes_eq]
      exact or_comm
    · refine List.pairwise_cons.2 ⟨fun q hq => ?_, hnoted.gapped⟩
      exact (hnoted.before_open q hq).trans_le hstart.1
    · obtain ⟨hlt', hno⟩ := hnoted.code p hp
      refine List.forall_mem_cons.2 ⟨fun hin => ?_, hno⟩
      rw [Range.contains_iff] at hin
      omega
  · rw [if_neg hbytes]
    have hnil : (decoder.disasm text).rtakeWhile Insn.isNop = [] := by
      by_contra hne
      exact hbytes (hopen.2 hne)
    refine ⟨_, _, cuts', runs, rfl, ⟨hkeeps, hdiv'⟩, hnoted.keeps, fun r => ?_, hnoted.gapped, fun p hp => (hnoted.code p hp).2⟩
    rw [hnoted.mem_iff, isPadding_iff, hnil]
    simp

end Fuel

end Egalito.Disasm
