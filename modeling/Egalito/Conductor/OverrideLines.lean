import Egalito.Conductor.ParseOverride
/-!
# Reading an override file

The two readers of `parseFile` take the lines of a file apart as `blocks` does,
as long as every directive is known and the last line is complete. Anything else
keeps the outer loop at the same line for ever.
-/

open Egalito.Lib

namespace Egalito.ParseOverride

/-! ## Blocks of lines -/

attribute [local simp] blocks directives

theorem blocks_true (lines : List Text) : blocks true lines = blocks false (lines.dropWhile isEntry) := by
  induction lines with
  | nil => rfl
  | cons line lines ih =>
    cases h : isEntry line with
    | true => simpa [blocks, h] using ih
    | false => simp [blocks, h]

theorem directives_true (lines : List Text) : directives true lines = directives false (lines.dropWhile isEntry) := by
  induction lines with
  | nil => rfl
  | cons line lines ih =>
    cases h : isEntry line with
    | true => simpa [directives, h] using ih
    | false => simp [directives, h]

theorem isHeader_nil : isHeader [] = false := rfl

theorem blocks_blank (lines : List Text) : blocks false ([] :: lines) = blocks false lines := by
  simp [blocks, isHeader_nil]

theorem directives_blank (lines : List Text) : directives false ([] :: lines) = directives false lines := by
  simp [directives]

theorem blocks_header {line : Text} (h : isHeader line = true) (lines : List Text) :
    blocks false (line :: lines) = (line, lines.takeWhile isEntry) :: blocks false (lines.dropWhile isEntry) := by
  simp [blocks, h, blocks_true]

theorem directives_header {line : Text} (h : isHeader line = true) (lines : List Text) :
    directives false (line :: lines) = line :: directives false (lines.dropWhile isEntry) := by
  have hne : line ≠ [] := by
    rintro rfl
    cases h
  simp [directives, h, hne, directives_true]

theorem isHeader_of_mem_blocks {inside : Bool} {lines : List Text} {block : Text × List Text}
    (h : block ∈ blocks inside lines) : isHeader block.1 = true := by
  induction lines generalizing inside with
  | nil => cases h
  | cons line lines ih =>
    rw [blocks] at h
    split_ifs at h with h₁ h₂
    · exact ih h
    · rcases List.mem_cons.1 h with rfl | h
      · exact h₂
      · exact ih h
    · exact ih h

/-! ## The inner reader -/

/-- What the outer reader gets back, when the last line is complete. -/
theorem parseLines_spec {lines : List Text} {count : Nat} (hcount : lines.length + 2 ≤ count) (tail line : Text) :
    BlockBoundaryOverride.parseLines count ⟨lines, tail, true⟩ line =
      match lines.dropWhile isEntry with
      | l :: ls => ((lines.takeWhile isEntry).map parseEntry, l, ⟨ls, tail, true⟩)
      | [] =>
        if tail = [] then ((lines.takeWhile isEntry).map parseEntry, [], ⟨[], [], false⟩)
        else ((lines.takeWhile isEntry ++ if isEntry tail then [tail] else []).map parseEntry,
          tail, ⟨[], [], false⟩) := by
  induction lines generalizing count line with
  | nil =>
    obtain ⟨count, rfl⟩ : ∃ n, count = n + 2 := ⟨count - 2, by simp at hcount; omega⟩
    by_cases htail : tail = []
    · simp [BlockBoundaryOverride.parseLines, FileStream.getline, htail]
    · cases hentry : isEntry tail <;>
        simp [BlockBoundaryOverride.parseLines, FileStream.getline, htail, hentry]
  | cons l ls ih =>
    obtain ⟨count, rfl⟩ : ∃ n, count = n + 1 := ⟨count - 1, by simp at hcount; omega⟩
    rw [BlockBoundaryOverride.parseLines]
    simp only [FileStream.getline, if_true]
    cases hentry : isEntry l with
    | false => simp [hentry]
    | true =>
      simp only [if_true]
      rw [ih (by simp at hcount; omega) l]
      simp only [List.dropWhile_cons_of_pos hentry, List.takeWhile_cons_of_pos hentry]
      cases ls.dropWhile isEntry with
      | cons l' ls' => rfl
      | nil =>
        dsimp only
        split_ifs <;> rfl

theorem parse_of_not_good {f : FileStream} (hf : f.good = false) (line : Text) :
    BlockBoundaryOverride.parse f line = ([], line, f) := by
  simp [BlockBoundaryOverride.parse, BlockBoundaryOverride.parseLines, FileStream.getline, hf]

/-! ## The outer reader -/

theorem parseHeader_type (line : Text) : (parseHeader line).1 = (words line).head?.getD [] := by
  rw [parseHeader]
  cases h : words line with
  | nil =>
    have hleft : (TextStream.ofText line).left = [] := h
    rw [TextStream.readWord_of_nil hleft]
    rfl
  | cons w ws =>
    have hleft : (TextStream.ofText line).left = w :: ws := h
    obtain ⟨s', hread, -⟩ := TextStream.readWord_of_cons hleft
    rw [hread]
    rfl

theorem type_eq_iff (line : Text) : (parseHeader line).1 = "blockoverride".toList ↔ isHeader line = true := by
  rw [parseHeader_type, isHeader]
  cases (words line).head? with
  | none => simp
  | some w => simp

/-- Neither an unknown directive nor a line from the end of the file is ever left. -/
theorem parseFileLoop_stuck {line : Text} {f : FileStream} (hline : line ≠ [])
    (h : isHeader line = false ∨ f.good = false) (count : Nat) (o : BlockOverrides) :
    parseFileLoop count line f o = none := by
  induction count generalizing o with
  | zero => rfl
  | succ count ih =>
    rw [parseFileLoop, if_neg hline]
    dsimp only
    split_ifs with htype
    · rw [type_eq_iff] at htype
      rcases h with h | h
      · rw [h] at htype
        cases htype
      · rw [parse_of_not_good h]
        exact ih _
    · exact ih o

/-- Comes to its end with these overrides. -/
def Returns (line : Text) (f : FileStream) (o r : BlockOverrides) : Prop :=
  ∃ count, parseFileLoop count line f o = some r

theorem returns_succ {line : Text} {f : FileStream} {o r : BlockOverrides} :
    Returns line f o r ↔ ∃ count, parseFileLoop (count + 1) line f o = some r := by
  constructor
  · rintro ⟨count, h⟩
    cases count with
    | zero => cases h
    | succ count => exact ⟨count, h⟩
  · exact fun ⟨count, h⟩ => ⟨count + 1, h⟩

theorem not_returns_of_stuck {line : Text} {f : FileStream} {o r : BlockOverrides} (hline : line ≠ [])
    (h : isHeader line = false ∨ f.good = false) : ¬ Returns line f o r := by
  rintro ⟨count, hr⟩
  rw [parseFileLoop_stuck hline h] at hr
  cases hr

/-- The loop ends where there is no further line. -/
theorem returns_end {f : FileStream} {o r : BlockOverrides} (h : (f.getline []).1 = false) :
    Returns [] f o r ↔ r = o := by
  rw [returns_succ]
  obtain ⟨line', f', hf⟩ : ∃ line' f', f.getline [] = (false, line', f') := ⟨_, _, Prod.ext h rfl⟩
  simp only [parseFileLoop, if_true, hf, Option.some.injEq]
  exact ⟨fun ⟨_, hr⟩ => hr.symm, fun hr => ⟨0, hr.symm⟩⟩

/-- What is stored for a block. -/
def storedBlock (block : Text × List Text) : OverrideContext × OverrideList :=
  ((parseHeader block.1).2, block.2.map parseEntry)

/-- A run from a line with `lines` behind it. -/
theorem returns_iff (lines : List Text) (line tail : Text) (o r : BlockOverrides) :
    Returns line ⟨lines, tail, true⟩ o r ↔ tail = [] ∧
      (∀ l ∈ directives false (line :: lines), isHeader l) ∧
      r = o ++ (blocks false (line :: lines)).map storedBlock := by
  induction hn : lines.length using Nat.strong_induction_on generalizing lines line o with
  | _ n ih =>
  subst hn
  by_cases hline : line = []
  · subst hline
    rw [directives_blank, blocks_blank]
    cases lines with
    | cons l ls =>
      rw [returns_succ]
      simp only [parseFileLoop, if_true, FileStream.getline]
      exact ih ls.length (Nat.lt_succ_self _) ls l o rfl
    | nil =>
      by_cases htail : tail = []
      · subst htail
        rw [returns_end rfl]
        simp [directives, blocks]
      · rw [returns_succ]
        simp only [parseFileLoop, if_true, FileStream.getline, htail, if_false, false_and, iff_false]
        exact not_returns_of_stuck htail (.inr rfl)
  cases hheader : isHeader line with
  | false =>
    refine iff_of_false (not_returns_of_stuck hline (.inl hheader)) ?_
    rintro ⟨-, hall, -⟩
    have := hall line (by simp [directives, hline])
    rw [hheader] at this
    cases this
  | true =>
    rw [returns_succ, directives_header hheader, blocks_header hheader]
    simp only [parseFileLoop, if_neg hline, type_eq_iff, hheader, if_true, BlockBoundaryOverride.parse,
      parseLines_spec (Nat.le_refl _), List.forall_mem_cons, true_and, List.map_cons]
    cases hrest : lines.dropWhile isEntry with
    | cons l ls =>
      have hlt : ls.length < lines.length := by
        have := (List.dropWhile_sublist isEntry (l := lines)).length_le
        rw [hrest, List.length_cons] at this
        omega
      have := ih ls.length hlt ls l (o ++ [storedBlock (line, lines.takeWhile isEntry)]) rfl
      rw [List.append_assoc, List.singleton_append] at this
      exact this
    | nil =>
      by_cases htail : tail = []
      · subst htail
        have hend : Returns [] ⟨[], [], false⟩ (o ++ [storedBlock (line, lines.takeWhile isEntry)]) r ↔ _ :=
          returns_end rfl
        refine hend.trans ?_
        simp [directives, blocks]
      · simp only [htail, if_false, false_and, iff_false]
        exact not_returns_of_stuck htail (.inr rfl)

end Egalito.ParseOverride
