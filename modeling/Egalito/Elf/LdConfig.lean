import Egalito.Lib.Recursion
import Egalito.Lib.Run
import Egalito.Lib.Text
/-!
# The configuration of the loader

`ElfDynamic::parseLdConfig`: the lines of a configuration file name directories
of the search path, or patterns of files that are parsed in their place.
-/

open Relation Egalito.Lib

namespace Egalito.LdConfig

/-! ## The parser -/

/-- The files, and what `glob` makes of a pattern: finitely many files exist, and only these
are returned. -/
structure LdConfigs where
  sysroot : Text
  contents : Text → Option Text
  glob : Text → List Text
  finite : {file | (contents file).isSome}.Finite
  glob_exists : ∀ pattern, ∀ file ∈ glob pattern, (contents file).isSome

namespace LdConfigs

variable (s : LdConfigs)

/-- `ConductorFilesystem::transform`. -/
def transform : Text → Text
  | [] => []
  | c :: path => if c = '/' then s.sysroot ++ c :: path else c :: path

def doGlob (pattern : Text) : List Text := s.glob pattern

/-- The lines of a file; one that does not open has none. -/
def lines (filename : Text) : List Text := pieces '\n' ((s.contents filename).getD [])

def split (line : Text) : List Text := pieces ' ' line

/-- One line, where `recur` parses an included file. -/
def parseLine (recur : List Text → Text → Option (List Text)) (searchPath : List Text) (line : Text) :
    Option (List Text) :=
  if line.length = 0 then some searchPath
  else if line.head? = some '#' then some searchPath
  else match split line with
    | [] => some searchPath
    | [token] => some (searchPath ++ [s.transform token])
    | first :: second :: _ =>
      if first = "include".toList then (s.doGlob (s.transform second)).foldlM recur searchPath
      -- an unrecognized line is only reported
      else some searchPath

/-- `depth` bounds the calls that are active at once; `none` is a deeper recursion. -/
def parseLdConfig : Nat → List Text → Text → Option (List Text)
  | 0, _, _ => none
  | depth + 1, searchPath, filename => (s.lines filename).foldlM (s.parseLine (parseLdConfig depth)) searchPath

/-! ## What a configuration stands for -/

/-- A line is a directory, the files of an include, or nothing. -/
inductive Entry
  | directory (path : Text)
  | included (files : List Text)
  | nothing

def entry (line : Text) : Entry :=
  if line.length = 0 then .nothing
  else if line.head? = some '#' then .nothing
  else match split line with
    | [] => .nothing
    | [token] => .directory (s.transform token)
    | first :: second :: _ => if first = "include".toList then .included (s.glob (s.transform second)) else .nothing

def Entry.files : Entry → List Text
  | .included files => files
  | _ => []

/-- The directories of an entry, when those of each file are known. -/
def Entry.directories (dirs : Text → List Text) : Entry → List Text
  | .directory path => [path]
  | .included files => files.flatMap dirs
  | .nothing => []

/-- The directories of a file, when those of the files it includes are known: every include is
replaced by them where it stands. -/
def expansion (dirs : Text → List Text) (file : Text) : List Text :=
  (s.lines file).flatMap fun line => (s.entry line).directories dirs

/-- A file names another one in an include. -/
def Includes (file included : Text) : Prop := ∃ line ∈ s.lines file, included ∈ (s.entry line).files

def Reached (start file : Text) : Prop := ReflTransGen s.Includes start file

/-- Directories for all files that are reached, each include being expanded in place. -/
def InPlace (start : Text) (dirs : Text → List Text) : Prop :=
  ∀ file, s.Reached start file → dirs file = s.expansion dirs file

/-! ## One file -/

variable {s} {file start : Text} {dirs : Text → List Text} {depth : Nat} {searchPath r : List Text}

theorem parseLine_eq (recur : List Text → Text → Option (List Text)) (searchPath : List Text) (line : Text) :
    s.parseLine recur searchPath line = match s.entry line with
      | .directory path => some (searchPath ++ [path])
      | .included files => files.foldlM recur searchPath
      | .nothing => some searchPath := by
  simp only [parseLine, entry, doGlob]
  split_ifs
  · rfl
  · rfl
  · cases split line with
    | nil => rfl
    | cons first rest =>
      cases rest with
      | nil => rfl
      | cons second rest =>
        simp only
        split_ifs <;> rfl

/-- From some depth on, parsing the file appends these directories. -/
def Appends (s : LdConfigs) (file : Text) (ds : List Text) : Prop :=
  ∃ depth, ∀ depth', depth ≤ depth' → ∀ searchPath, s.parseLdConfig depth' searchPath file = some (searchPath ++ ds)

theorem Appends.unique {ds ds' : List Text} (h : s.Appends file ds) (h' : s.Appends file ds') : ds = ds' := by
  obtain ⟨d, h⟩ := h
  obtain ⟨d', h'⟩ := h'
  have := (h _ (le_max_left d d') []).symm.trans (h' _ (le_max_right d d') [])
  simpa using this

/-- A loop whose rounds append. -/
theorem foldlM_append {α : Type} {f : List Text → α → Option (List Text)} {g : α → List Text} {l : List α}
    (h : ∀ a ∈ l, ∀ path, f path a = some (path ++ g a)) (path : List Text) :
    l.foldlM f path = some (path ++ l.flatMap g) := by
  induction l generalizing path with
  | nil => simp
  | cons a l ih =>
    rw [List.foldlM_cons, h a List.mem_cons_self, Option.bind_eq_bind, Option.bind_some,
      ih (fun b hb => h b (List.mem_cons_of_mem _ hb)), List.flatMap_cons, List.append_assoc]

/-- A depth that is enough for each of finitely many files is enough for all. -/
theorem exists_depth {files : List Text} (h : ∀ f ∈ files, s.Appends f (dirs f)) : ∃ depth, ∀ f ∈ files,
    ∀ depth', depth ≤ depth' → ∀ searchPath, s.parseLdConfig depth' searchPath f = some (searchPath ++ dirs f) := by
  induction files with
  | nil => exact ⟨0, fun f hf => absurd hf List.not_mem_nil⟩
  | cons g files ih =>
    obtain ⟨d₁, h₁⟩ := h g List.mem_cons_self
    obtain ⟨d₂, h₂⟩ := ih fun f hf => h f (List.mem_cons_of_mem _ hf)
    refine ⟨max d₁ d₂, fun f hf depth' hle searchPath => ?_⟩
    rcases List.mem_cons.1 hf with rfl | hf
    · exact h₁ depth' (le_of_max_le_left hle) searchPath
    · exact h₂ f hf depth' (le_of_max_le_right hle) searchPath

/-- When the included files are expanded, so is the file. -/
theorem Appends.step (h : ∀ f, s.Includes file f → s.Appends f (dirs f)) : s.Appends file (s.expansion dirs file) := by
  have hfiles : ∀ f ∈ (s.lines file).flatMap fun line => (s.entry line).files, s.Appends f (dirs f) := by
    intro f hf
    obtain ⟨line, hline, hf⟩ := List.mem_flatMap.1 hf
    exact h f ⟨line, hline, hf⟩
  obtain ⟨depth, hdepth⟩ := exists_depth hfiles
  refine ⟨depth + 1, fun depth' hle searchPath => ?_⟩
  obtain ⟨d, rfl⟩ : ∃ d, depth' = d + 1 := ⟨depth' - 1, by omega⟩
  refine foldlM_append (fun line hline path => ?_) searchPath
  rw [parseLine_eq]
  cases hentry : s.entry line with
  | directory path => rfl
  | nothing => simp [Entry.directories]
  | included files =>
    refine foldlM_append (fun f hf path => hdepth f ?_ d (by omega) path) path
    exact List.mem_flatMap.2 ⟨line, hline, by rw [hentry]; exact hf⟩

/-- A call that returns has made a call for every include, one level deeper. -/
theorem parse_included (h : s.parseLdConfig (depth + 1) searchPath file = some r) {f : Text} (hf : s.Includes file f) :
    ∃ path r', s.parseLdConfig depth path f = some r' := by
  obtain ⟨line, hline, hf⟩ := hf
  obtain ⟨path, path', hstep⟩ := exists_step_of_foldlM h line hline
  rw [parseLine_eq] at hstep
  cases hentry : s.entry line with
  | directory path => rw [hentry] at hf; exact absurd hf List.not_mem_nil
  | nothing => rw [hentry] at hf; exact absurd hf List.not_mem_nil
  | included files =>
    rw [hentry] at hf hstep
    exact exists_step_of_foldlM hstep f hf

/-! ## All files -/

theorem acc_of_parse (h : s.parseLdConfig depth searchPath file = some r) :
    Acc (fun included file => s.Includes file included) file := by
  induction depth generalizing file searchPath r with
  | zero => cases h
  | succ depth ih =>
    refine .intro file fun f hf => ?_
    obtain ⟨_, _, h'⟩ := parse_included h hf
    exact ih h'

theorem exists_of_includes {f : Text} (h : s.Includes file f) : (s.contents f).isSome := by
  obtain ⟨line, -, hf⟩ := h
  simp only [entry] at hf
  split_ifs at hf
  · cases hf
  · cases hf
  · split at hf
    · cases hf
    · cases hf
    · split_ifs at hf
      · exact s.glob_exists _ f hf
      · cases hf

theorem acc_of_no_cycle (h : ¬ ∃ file, s.Reached start file ∧ TransGen s.Includes file file) :
    Acc (fun included file => s.Includes file included) start := by
  push Not at h
  refine acc_of_acyclic (s := {f | (f = start ∨ (s.contents f).isSome) ∧ s.Reached start f}) ?_ ?_ ?_
    ⟨.inl rfl, .refl⟩
  · refine ((Set.finite_singleton start).union s.finite).subset fun f hf => ?_
    exact hf.1
  · exact fun f hf f' hf' => ⟨.inr (exists_of_includes hf'), hf.2.tail hf'⟩
  · exact fun f hf => h f hf.2

theorem no_cycle_of_acc (h : Acc (fun included file => s.Includes file included) start) :
    ¬ ∃ file, s.Reached start file ∧ TransGen s.Includes file file := by
  rintro ⟨file, hreach, hcycle⟩
  have hacc : Acc (fun included file => s.Includes file included) file := by
    clear hcycle
    induction hreach with
    | refl => exact h
    | tail _ hstep ih => exact ih.inv hstep
  exact not_transGen_of_acc hacc hcycle

theorem appends_of_acc (h : Acc (fun included file => s.Includes file included) file) :
    ∃ ds, s.Appends file ds := by
  induction h with
  | intro file _ ih =>
    choose! dirs hdirs using ih
    exact ⟨_, Appends.step hdirs⟩

/-- The parser returns with the directories of all files that are reached, every include
expanded in place, if and only if no file that is reached leads back to itself. -/
theorem parseLdConfig_expands_iff (s : LdConfigs) (start : Text) (searchPath : List Text) :
    (∃ dirs, s.InPlace start dirs ∧ ∃ depth, s.parseLdConfig depth searchPath start = some (searchPath ++ dirs start)) ↔
      ¬ ∃ file, s.Reached start file ∧ TransGen s.Includes file file := by
  constructor
  · rintro ⟨dirs, -, depth, h⟩
    exact no_cycle_of_acc (acc_of_parse h)
  · intro h
    have happends : ∀ file, s.Reached start file → ∃ ds, s.Appends file ds := fun file hreach =>
      appends_of_acc (acc_of_no_cycle fun ⟨f, hf, hcycle⟩ => h ⟨f, hreach.trans hf, hcycle⟩)
    choose! dirs hdirs using happends
    refine ⟨dirs, fun file hreach => ?_, ?_⟩
    · exact (hdirs file hreach).unique (Appends.step fun f hf => hdirs f (hreach.tail hf))
    · obtain ⟨depth, hdepth⟩ := hdirs start .refl
      exact ⟨depth, hdepth depth le_rfl searchPath⟩

def configPath : Text := "/etc/ld.so.conf".toList

def selfContents (file : Text) : Option Text :=
  if file = configPath then some "include /etc/ld.so.conf\n".toList else none

/-- A file that includes itself. -/
def selfInclude : LdConfigs where
  sysroot := []
  contents := selfContents
  glob pattern := if pattern = configPath then [pattern] else []
  finite := (Set.finite_singleton configPath).subset fun file (hfile : (selfContents file).isSome) => by
    by_contra hne
    rw [selfContents, if_neg (show ¬ file = configPath from hne)] at hfile
    cases hfile
  glob_exists pattern file hfile := by
    split_ifs at hfile with hp
    · rw [List.mem_singleton.1 hfile, selfContents, if_pos hp]
      rfl
    · cases hfile

theorem selfInclude_not_expanded : ¬ ∃ dirs, selfInclude.InPlace configPath dirs ∧
    ∃ depth, selfInclude.parseLdConfig depth [] configPath = some ([] ++ dirs configPath) := by
  rintro ⟨dirs, -, depth, h⟩
  have hself : selfInclude.Includes configPath configPath :=
    ⟨"include /etc/ld.so.conf".toList, by decide +kernel, by decide +kernel⟩
  exact no_cycle_of_acc (acc_of_parse h) ⟨_, .refl, .single hself⟩

end LdConfigs

end Egalito.LdConfig
