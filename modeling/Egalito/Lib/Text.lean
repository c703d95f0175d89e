import Mathlib.Data.List.TakeWhile
import Mathlib.Tactic
/-!
# Formatted text input

Lines, and words and unsigned 64-bit numbers that are extracted from a line the
way `std::istringstream` does it. An extraction that finds nothing leaves the
variable it was for alone: that is `none`.
-/

namespace Egalito.Lib

abbrev Text := List Char

/-- `isspace` of the C locale. -/
def isSpace (c : Char) : Bool := c = ' ' || ('\t' ≤ c && c ≤ '\r')

/-! ## Lines -/

/-- The lines that end in a newline, and what follows the last of these. -/
def splitLines : Text → List Text × Text
  | [] => ([], [])
  | c :: cs =>
    match splitLines cs with
    | (lines, tail) =>
      if c = '\n' then ([] :: lines, tail)
      else match lines with
        | [] => ([], c :: tail)
        | line :: lines => ((c :: line) :: lines, tail)

/-! ## Words -/

def consHead (c : Char) : List Text → List Text
  | [] => [[c]]
  | w :: ws => (c :: w) :: ws

/-- What a loop of `std::getline` with a delimiter takes from a text: the pieces in front of
the delimiters, and what follows the last of these unless it is empty. -/
def pieces (delim : Char) : Text → List Text
  | [] => []
  | c :: cs => if c = delim then [] :: pieces delim cs else consHead c (pieces delim cs)

/-- The maximal runs of characters that are not blank. -/
def words : Text → List Text
  | [] => []
  | c :: cs =>
    if isSpace c then words cs
    else match cs with
      | [] => [[c]]
      | d :: _ => if isSpace d then [c] :: words cs else consHead c (words cs)

def wordChar (c : Char) : Bool := !isSpace c

theorem words_space {c : Char} (hc : isSpace c = true) (cs : Text) : words (c :: cs) = words cs := by
  rw [words.eq_def]
  exact if_pos hc

theorem words_dropWhile (cs : Text) : words (cs.dropWhile isSpace) = words cs := by
  induction cs with
  | nil => rfl
  | cons c cs ih =>
    rw [List.dropWhile_cons]
    split
    · rename_i hc
      rw [ih, words_space hc]
    · rfl

theorem wordChar_of_dropWhile {c : Char} {cs cs' : Text} (h : cs.dropWhile isSpace = c :: cs') : wordChar c = true := by
  have hc := List.head?_dropWhile_not isSpace cs
  rw [h] at hc
  simpa [wordChar] using hc

/-- A text that starts with a word. -/
theorem words_cons {c : Char} (hc : wordChar c = true) (cs : Text) :
    words (c :: cs) = (c :: cs).takeWhile wordChar :: words ((c :: cs).dropWhile wordChar) := by
  induction cs generalizing c with
  | nil => simp_all [words, wordChar]
  | cons d cs ih =>
    have hc' : isSpace c = false := by simpa [wordChar] using hc
    rw [words.eq_def]
    simp only [hc', Bool.false_eq_true, if_false]
    rw [List.takeWhile_cons_of_pos hc, List.dropWhile_cons_of_pos hc]
    cases hd : isSpace d with
    | true =>
      have hd' : ¬ wordChar d = true := by simp [wordChar, hd]
      simp only [if_true]
      rw [List.takeWhile_cons_of_neg hd', List.dropWhile_cons_of_neg hd']
    | false =>
      have hd' : wordChar d = true := by simp [wordChar, hd]
      simp only [Bool.false_eq_true, if_false]
      rw [ih hd']
      rfl

theorem words_append {rest : Text} (hrest : ∀ c ∈ rest.head?, isSpace c) (cs : Text) :
    words (cs ++ rest) = words cs ++ words rest := by
  induction cs with
  | nil => rfl
  | cons c cs ih =>
    cases hc : isSpace c with
    | true => rw [List.cons_append, words_space hc, words_space hc, ih]
    | false =>
      rw [List.cons_append, words.eq_def, words.eq_def]
      simp only [hc, Bool.false_eq_true, if_false]
      cases cs with
      | nil =>
        cases rest with
        | nil => rfl
        | cons d ds => simp [hrest d rfl]
      | cons d ds =>
        simp only [List.cons_append] at ih ⊢
        rw [ih]
        cases hd : isSpace d with
        | true => rfl
        | false =>
          rw [words_cons (by simp [wordChar, hd])]
          rfl

/-! ## Numbers -/

def digitValue (c : Char) : Nat :=
  if '0' ≤ c ∧ c ≤ '9' then c.toNat - '0'.toNat
  else if 'a' ≤ c ∧ c ≤ 'f' then c.toNat - 'a'.toNat + 10
  else if 'A' ≤ c ∧ c ≤ 'F' then c.toNat - 'A'.toNat + 10
  else 16

def isDigit (base : Nat) (c : Char) : Bool := digitValue c < base

/-- The value of a row of digits. -/
def digitsValue (base : Nat) (ds : Text) : Nat := ds.foldl (fun n c => n * base + digitValue c) 0

/-- In base 16 a number may start with `0x`. -/
def dropBasePrefix (base : Nat) : Text → Text
  | c :: x :: cs => if base = 16 ∧ c = '0' ∧ (x = 'x' ∨ x = 'X') then cs else c :: x :: cs
  | cs => cs

/-- The value stored, whether the extraction succeeded, and what it left. -/
structure Extracted where
  value : UInt64
  ok : Bool
  rest : Text
deriving DecidableEq

def dropSign : Text → Bool × Text
  | [] => (false, [])
  | c :: cs => if c = '-' then (true, cs) else if c = '+' then (false, cs) else (false, c :: cs)

/-- `num_get` for an unsigned type: a sign, digits up to the first other character. No digits
give 0, too many give the largest value, and both fail. -/
def extractInt (base : Nat) (cs : Text) : Extracted :=
  let (negative, cs) := dropSign cs
  let cs := dropBasePrefix base cs
  let ds := cs.takeWhile (isDigit base)
  let rest := cs.dropWhile (isDigit base)
  let value := digitsValue base ds
  if ds = [] then ⟨0, false, rest⟩
  else if 2 ^ 64 ≤ value then ⟨0xffffffffffffffff, false, rest⟩
  else ⟨if negative then -UInt64.ofNat value else UInt64.ofNat value, true, rest⟩

/-- A word that is a number in this base, and nothing else. -/
def numeral (base : Nat) (word : Text) : Option UInt64 :=
  let ds := dropBasePrefix base word
  if ds ≠ [] ∧ ds.all (isDigit base) ∧ digitsValue base ds < 2 ^ 64 then some (UInt64.ofNat (digitsValue base ds))
  else none

theorem isDigit_wordChar {base : Nat} (hb : base ≤ 16) {c : Char} (h : isDigit base c = true) : wordChar c = true := by
  by_contra hc
  have hspace : isSpace c = true := by simpa [wordChar] using hc
  have h16 : digitValue c = 16 := by
    simp only [isSpace, Bool.or_eq_true, Bool.and_eq_true, decide_eq_true_eq] at hspace
    simp only [digitValue, Char.le_def, UInt32.le_iff_toNat_le] at hspace ⊢
    rcases hspace with rfl | hspace
    · decide
    · rw [if_neg, if_neg, if_neg] <;> simp at hspace ⊢ <;> omega
  simp only [isDigit, h16, decide_eq_true_eq] at h
  omega

theorem dropSign_append {w : Text} (hw : w ≠ []) (rest : Text) :
    dropSign (w ++ rest) = ((dropSign w).1, (dropSign w).2 ++ rest) := by
  cases w with
  | nil => exact absurd rfl hw
  | cons c cs =>
    rw [List.cons_append, dropSign, dropSign]
    split_ifs <;> rfl

theorem dropBasePrefix_append {base : Nat} {rest : Text} (hrest : ∀ c ∈ rest.head?, isSpace c) (w : Text) :
    dropBasePrefix base (w ++ rest) = dropBasePrefix base w ++ rest := by
  have hx : ∀ c ∈ rest.head?, c ≠ 'x' ∧ c ≠ 'X' ∧ c ≠ '0' := by
    intro c hc
    have hspace := hrest c hc
    refine ⟨?_, ?_, ?_⟩ <;> rintro rfl <;> revert hspace <;> decide
  match w, rest with
  | [], [] => rfl
  | [], [_] => rfl
  | [], c :: d :: ds => simp [dropBasePrefix, (hx c rfl).2.2]
  | [c], [] => rfl
  | [c], d :: ds => simp [dropBasePrefix, (hx d rfl).1, (hx d rfl).2.1]
  | c :: d :: ds, rest =>
    simp only [List.cons_append, dropBasePrefix]
    split_ifs <;> rfl

theorem takeWhile_stop {p : Char → Bool} {rest : Text} (hrest : ∀ c ∈ rest.head?, ¬ p c = true) (cs : Text) :
    (cs ++ rest).takeWhile p = cs.takeWhile p ∧ (cs ++ rest).dropWhile p = cs.dropWhile p ++ rest := by
  induction cs with
  | nil =>
    cases rest with
    | nil => exact ⟨rfl, rfl⟩
    | cons c cs => simp [List.takeWhile_cons_of_neg (hrest c rfl), List.dropWhile_cons_of_neg (hrest c rfl)]
  | cons c cs ih =>
    cases hc : p c <;> simp [hc, ih]

/-- A number ends with its word. -/
theorem extractInt_append {base : Nat} (hb : base ≤ 16) {w rest : Text} (hw : w ≠ []) (hrest : ∀ c ∈ rest.head?, isSpace c) :
    extractInt base (w ++ rest) = { extractInt base w with rest := (extractInt base w).rest ++ rest } := by
  have hstop : ∀ c ∈ rest.head?, ¬ isDigit base c = true := by
    intro c hc hd
    have := isDigit_wordChar hb hd
    simp [wordChar, hrest c hc] at this
  obtain ⟨htake, hdrop⟩ := takeWhile_stop hstop (dropBasePrefix base (dropSign w).2)
  simp only [extractInt, dropSign_append hw, dropBasePrefix_append hrest, htake, hdrop]
  split_ifs <;> rfl

theorem extractInt_of_numeral {base : Nat} (hb : base ≤ 16) {w : Text} {v : UInt64} (h : numeral base w = some v) :
    extractInt base w = ⟨v, true, []⟩ := by
  rw [numeral] at h
  split_ifs at h with hw
  obtain ⟨hne, hall, hlt⟩ := hw
  have hsign : dropSign w = (false, w) := by
    cases w with
    | nil => rfl
    | cons c cs =>
      have hc : ∀ d, digitValue d = 16 → d ≠ '0' → c ≠ d := by
        rintro d hd h0 rfl
        have hself : dropBasePrefix base (c :: cs) = c :: cs := by
          cases cs with
          | nil => rfl
          | cons e es => rw [dropBasePrefix, if_neg (fun h => h0 h.2.1)]
        rw [hself] at hall
        have hdigit := List.all_eq_true.1 hall c List.mem_cons_self
        simp only [isDigit, hd, decide_eq_true_eq] at hdigit
        omega
      rw [dropSign, if_neg (hc '-' (by decide) (by decide)), if_neg (hc '+' (by decide) (by decide))]
  have htake := List.takeWhile_eq_self_iff.2 (List.all_eq_true.1 hall)
  have hdrop := List.dropWhile_eq_nil_iff.2 (List.all_eq_true.1 hall)
  simp only [extractInt, hsign, htake, hdrop, if_neg hne, if_neg (Nat.not_le.2 hlt)]
  rw [← Option.some.inj h]
  rfl

theorem length_extractInt_rest (base : Nat) (cs : Text) : (extractInt base cs).rest.length ≤ cs.length := by
  have hsign : (dropSign cs).2.length ≤ cs.length := by
    cases cs with
    | nil => exact Nat.le_refl _
    | cons c cs =>
      rw [dropSign]
      split_ifs <;> simp
  have hbase : ∀ cs : Text, (dropBasePrefix base cs).length ≤ cs.length := by
    intro cs
    rw [dropBasePrefix.eq_def]
    split
    · split_ifs
      · simp only [List.length_cons]
        omega
      · exact Nat.le_refl _
    · exact Nat.le_refl _
  have hdrop : ∀ cs : Text, (cs.dropWhile (isDigit base)).length ≤ cs.length :=
    fun cs => (List.dropWhile_sublist _).length_le
  have hrest : (extractInt base cs).rest = (dropBasePrefix base (dropSign cs).2).dropWhile (isDigit base) := by
    simp only [extractInt]
    split_ifs <;> rfl
  rw [hrest]
  exact (hdrop _).trans ((hbase _).trans hsign)

/-! ## Streams -/

/-- What is left of the text, and `good()`. -/
structure TextStream where
  rest : Text
  good : Bool
deriving DecidableEq

namespace TextStream

def ofText (text : Text) : TextStream := ⟨text, true⟩

/-- The `sentry` of an extraction: skips blanks, and refuses when nothing follows them. -/
def sentry (s : TextStream) : Option Text :=
  if s.good then
    match s.rest.dropWhile isSpace with
    | [] => none
    | c :: cs => some (c :: cs)
  else none

/-- A stream that has come to its end is no longer good. -/
def after (rest : Text) (ok : Bool) : TextStream := ⟨rest, ok && rest ≠ []⟩

def readWord (s : TextStream) : Option Text × TextStream :=
  match s.sentry with
  | none => (none, ⟨[], false⟩)
  | some cs => (some (cs.takeWhile wordChar), after (cs.dropWhile wordChar) true)

def readInt (base : Nat) (s : TextStream) : Option UInt64 × TextStream :=
  match s.sentry with
  | none => (none, ⟨[], false⟩)
  | some cs => (some (extractInt base cs).value, after (extractInt base cs).rest (extractInt base cs).ok)

/-- What the sentry passes starts with a word, and is no longer than the stream. -/
theorem sentry_spec {s : TextStream} {cs : Text} (h : s.sentry = some cs) :
    ∃ c cs', cs = c :: cs' ∧ wordChar c = true ∧ cs.length ≤ s.rest.length := by
  rw [sentry] at h
  split at h
  · split at h
    · cases h
    · rename_i c cs' hcs
      cases h
      refine ⟨c, cs', rfl, wordChar_of_dropWhile hcs, ?_⟩
      rw [← hcs]
      exact (List.dropWhile_sublist _).length_le
  · cases h

/-- A word takes at least one character. -/
theorem length_readWord {s s' : TextStream} {w : Text} (h : s.readWord = (some w, s')) :
    s'.rest.length < s.rest.length := by
  rw [readWord] at h
  split at h
  · cases h
  · rename_i cs hcs
    cases h
    obtain ⟨c, cs, rfl, hc, hlen⟩ := sentry_spec hcs
    have hdrop : (cs.dropWhile wordChar).length ≤ cs.length := (List.dropWhile_sublist _).length_le
    rw [List.length_cons] at hlen
    rw [after, List.dropWhile_cons_of_pos hc]
    change (cs.dropWhile wordChar).length < s.rest.length
    omega

theorem length_readInt {base : Nat} {s s' : TextStream} {v : Option UInt64} (h : s.readInt base = (v, s')) :
    s'.rest.length ≤ s.rest.length := by
  rw [readInt] at h
  split at h
  · cases h
    exact Nat.zero_le _
  · rename_i cs hcs
    cases h
    obtain ⟨_, _, _, _, hlen⟩ := sentry_spec hcs
    exact (length_extractInt_rest base cs).trans hlen

/-! ## Reading word by word -/

/-- The words that can still be extracted. -/
def left (s : TextStream) : List Text := if s.good then words s.rest else []

theorem left_ofText (text : Text) : (ofText text).left = words text := rfl

theorem left_after (rest : Text) (ok : Bool) : (after rest ok).left = if ok then words rest else [] := by
  cases ok with
  | false => rfl
  | true =>
    cases rest with
    | nil => rfl
    | cons c cs => rfl

theorem sentry_of_nil {s : TextStream} (h : s.left = []) : s.sentry = none := by
  rw [left] at h
  rw [sentry]
  split
  · rename_i hgood
    rw [if_pos hgood, ← words_dropWhile] at h
    cases hcs : s.rest.dropWhile isSpace with
    | nil => rfl
    | cons c cs =>
      have hc := wordChar_of_dropWhile hcs
      rw [hcs, words_cons hc] at h
      cases h
  · rfl

/-- A stream with a word left starts with it, behind blanks. -/
theorem sentry_of_cons {s : TextStream} {w : Text} {ws : List Text} (h : s.left = w :: ws) :
    ∃ rest, s.sentry = some (w ++ rest) ∧ w ≠ [] ∧ (∀ c ∈ w, wordChar c) ∧
      (∀ c ∈ rest.head?, isSpace c) ∧ words rest = ws := by
  rw [left] at h
  split at h
  · rename_i hgood
    rw [← words_dropWhile] at h
    cases hcs : s.rest.dropWhile isSpace with
    | nil =>
      rw [hcs] at h
      cases h
    | cons c cs =>
      have hc := wordChar_of_dropWhile hcs
      rw [hcs, words_cons hc] at h
      obtain ⟨rfl, rfl⟩ := List.cons.inj h
      refine ⟨(c :: cs).dropWhile wordChar, ?_, ?_, fun d hd => List.mem_takeWhile_imp hd, fun d hd => ?_, rfl⟩
      · rw [List.takeWhile_append_dropWhile, sentry, if_pos hgood, hcs]
      · rw [List.takeWhile_cons_of_pos hc]
        exact List.cons_ne_nil _ _
      · have hd' := List.head?_dropWhile_not wordChar (c :: cs)
        rw [Option.mem_def.1 hd] at hd'
        simpa [wordChar] using hd'
  · cases h

theorem readWord_of_nil {s : TextStream} (h : s.left = []) : s.readWord = (none, ⟨[], false⟩) := by
  rw [readWord, sentry_of_nil h]

theorem readWord_of_cons {s : TextStream} {w : Text} {ws : List Text} (h : s.left = w :: ws) :
    ∃ s', s.readWord = (some w, s') ∧ s'.left = ws := by
  obtain ⟨rest, hsentry, -, hw, hrest, rfl⟩ := sentry_of_cons h
  have hstop : ∀ c ∈ rest.head?, ¬ wordChar c = true := fun c hc => by simp [wordChar, hrest c hc]
  refine ⟨after rest true, ?_, left_after rest true⟩
  rw [readWord, hsentry]
  obtain ⟨htake, hdrop⟩ := takeWhile_stop hstop w
  simp only [htake, hdrop, List.takeWhile_eq_self_iff.2 hw, List.dropWhile_eq_nil_iff.2 hw, List.nil_append]

theorem readInt_of_nil {base : Nat} {s : TextStream} (h : s.left = []) : s.readInt base = (none, ⟨[], false⟩) := by
  rw [readInt, sentry_of_nil h]

/-- What a number leaves of its word is the next word. -/
theorem readInt_of_cons {base : Nat} (hb : base ≤ 16) {s : TextStream} {w : Text} {ws : List Text} (h : s.left = w :: ws) :
    ∃ s', s.readInt base = (some (extractInt base w).value, s') ∧ s'.left =
      if (extractInt base w).ok then words (extractInt base w).rest ++ ws else [] := by
  obtain ⟨rest, hsentry, hne, hw, hrest, rfl⟩ := sentry_of_cons h
  refine ⟨after (extractInt base (w ++ rest)).rest (extractInt base (w ++ rest)).ok, ?_, ?_⟩
  · rw [readInt, hsentry]
    simp only [extractInt_append hb hne hrest]
  · rw [left_after, extractInt_append hb hne hrest]
    simp only [words_append hrest]

theorem readInt_of_numeral {base : Nat} (hb : base ≤ 16) {s : TextStream} {w : Text} {ws : List Text} {v : UInt64}
    (h : s.left = w :: ws) (hv : numeral base w = some v) : ∃ s', s.readInt base = (some v, s') ∧ s'.left = ws := by
  obtain ⟨s', hread, hleft⟩ := readInt_of_cons hb h
  rw [extractInt_of_numeral hb hv] at hread hleft
  exact ⟨s', hread, hleft⟩

end TextStream

end Egalito.Lib
