import Mathlib.Tactic
/-!
# Laid-out code

Instructions in a row, with labels. An instruction goes on to the one behind it,
jumps to a label, starts again at the top, or leaves. Weaving writes straight
code in front of instructions: the runs of the woven code are the runs of the
original with that code written in, where a jump may pass some of it.
-/

namespace Egalito.Lib

inductive Next (ι : Type)
  | fall | jump (label : ι) | restart | leave
deriving DecidableEq, Repr

/-- How an instruction is reached. -/
inductive Arrival
  | start | fall | jump
deriving DecidableEq, Repr

variable {ι α : Type} [DecidableEq ι] (next : α → List (Next ι))

/-- The code from a label on; none of it where the label is missing. -/
def behind (code : List (ι × α)) (label : ι) : List (ι × α) := code.dropWhile fun x => x.1 ≠ label

/-- The ways through `code` from a position to leaving it. -/
inductive Path (code : List (ι × α)) : Arrival → List (ι × α) → List (Arrival × ι × α) → Prop
  | leave {a x rest} : .leave ∈ next x.2 → Path code a (x :: rest) [(a, x)]
  | fall {a x rest t} : .fall ∈ next x.2 → Path code .fall rest t → Path code a (x :: rest) ((a, x) :: t)
  | jump {a x rest t l} : .jump l ∈ next x.2 → Path code .jump (behind code l) t → Path code a (x :: rest) ((a, x) :: t)
  | restart {a x rest t} : .restart ∈ next x.2 → Path code .start code t → Path code a (x :: rest) ((a, x) :: t)

/-- From the top to leaving. -/
def Complete (code : List (ι × α)) (t : List (Arrival × ι × α)) : Prop := Path next code .start code t

/-- What is executed on the way, without how it was reached. -/
def Runs (code pos : List (ι × α)) (ops : List α) : Prop :=
  ∃ t, Path next code .start pos t ∧ t.map (·.2.2) = ops

variable {next} {code pos rest : List (ι × α)} {t : List (Arrival × ι × α)} {a b : Arrival} {x : ι × α} {ops : List α}

theorem Path.arrive (h : Path next code a pos t) (b : Arrival) :
    ∃ t', Path next code b pos t' ∧ t'.map (·.2.2) = t.map (·.2.2) := by
  cases h with
  | leave h => exact ⟨_, .leave h, rfl⟩
  | fall h ht => exact ⟨_, .fall h ht, rfl⟩
  | jump h ht => exact ⟨_, .jump h ht, rfl⟩
  | restart h ht => exact ⟨_, .restart h ht, rfl⟩

/-- A path begins with its arrival, and stays in the code. -/
theorem Path.eq_cons (h : Path next code a pos t) : ∃ x t', t = (a, x) :: t' := by
  cases h <;> exact ⟨_, _, rfl⟩

theorem Path.mem_code (h : Path next code a pos t) (hsub : pos <:+ code) : ∀ y ∈ t, y.2 ∈ code := by
  induction h with
  | leave _ =>
    intro y hy
    rw [List.mem_singleton.1 hy]
    exact hsub.subset List.mem_cons_self
  | @fall _ x rest _ _ _ ih =>
    rw [List.forall_mem_cons]
    exact ⟨hsub.subset List.mem_cons_self, ih ((List.suffix_cons x rest).trans hsub)⟩
  | jump _ _ ih =>
    rw [List.forall_mem_cons]
    exact ⟨hsub.subset List.mem_cons_self, ih (List.dropWhile_suffix _)⟩
  | restart _ _ ih =>
    rw [List.forall_mem_cons]
    exact ⟨hsub.subset List.mem_cons_self, ih (List.suffix_refl code)⟩

theorem Path.head (h : Path next code a pos t) : t.head? = pos.head?.map (a, ·) := by
  cases h <;> rfl

/-- Starting again is always at the same instruction. -/
theorem Path.restarts (h : Path next code a pos t) : ∀ y ∈ t.tail, y.1 = .start → code.head? = some y.2 := by
  have hnext : ∀ {b : Arrival} {pos t}, b ≠ .start → Path next code b pos t →
      (∀ y ∈ t.tail, y.1 = .start → code.head? = some y.2) → ∀ y ∈ t, y.1 = .start → code.head? = some y.2 := by
    intro b pos t hb ht ih y hy hstart
    obtain ⟨x, t', rfl⟩ := ht.eq_cons
    rcases List.mem_cons.1 hy with rfl | hy
    · exact absurd hstart hb
    · exact ih y hy hstart
  induction h with
  | leave _ => exact fun y hy => nomatch hy
  | fall _ ht ih => exact hnext (by simp) ht ih
  | jump _ ht ih => exact hnext (by simp) ht ih
  | restart _ ht ih =>
    intro y hy hstart
    obtain ⟨x, t', rfl⟩ := ht.eq_cons
    rcases List.mem_cons.1 hy with rfl | hy
    · have hhead := ht.head
      cases hcode : code with
      | nil => simp [hcode] at hhead
      | cons z rest => simpa [hcode, eq_comm] using hhead
    · exact ih y hy hstart

theorem Path.last_leaves (h : Path next code a pos t) : ∀ y ∈ t.getLast?, .leave ∈ next y.2.2 := by
  have hnext : ∀ {b : Arrival} {pos t} (z : Arrival × ι × α), Path next code b pos t →
      (∀ y ∈ t.getLast?, .leave ∈ next y.2.2) → ∀ y ∈ (z :: t).getLast?, .leave ∈ next y.2.2 := by
    intro b pos t z ht ih y hy
    obtain ⟨x, t', rfl⟩ := ht.eq_cons
    rw [List.getLast?_cons_cons] at hy
    exact ih y hy
  induction h with
  | @leave a x rest hleave =>
    intro y hy
    obtain rfl : (a, x) = y := by simpa using hy
    exact hleave
  | fall _ ht ih => exact hnext _ ht ih
  | jump _ ht ih => exact hnext _ ht ih
  | restart _ ht ih => exact hnext _ ht ih

/-- What only leaves is at the end. -/
theorem Path.ends (h : Path next code a (x :: rest) t) (hx : next x.2 = [.leave]) : t = [(a, x)] := by
  cases h with
  | leave _ => rfl
  | fall hn _ => simp [hx] at hn
  | jump hn _ => simp [hx] at hn
  | restart hn _ => simp [hx] at hn

theorem Runs.path (h : Runs next code pos ops) (b : Arrival) : ∃ t, Path next code b pos t ∧ t.map (·.2.2) = ops := by
  obtain ⟨t, ht, rfl⟩ := h
  exact ht.arrive b

theorem Path.runs (h : Path next code a pos t) : Runs next code pos (t.map (·.2.2)) := h.arrive .start

theorem not_runs_nil : ¬ Runs next code [] ops := by
  rintro ⟨t, ht, -⟩
  cases ht

/-- One instruction of a run. -/
theorem runs_cons : Runs next code (x :: rest) ops ↔ ∃ ops', ops = x.2 :: ops' ∧
    ((.leave ∈ next x.2 ∧ ops' = []) ∨ (.fall ∈ next x.2 ∧ Runs next code rest ops') ∨
      (∃ l, .jump l ∈ next x.2 ∧ Runs next code (behind code l) ops') ∨
      (.restart ∈ next x.2 ∧ Runs next code code ops')) := by
  constructor
  · rintro ⟨t, ht, rfl⟩
    cases ht with
    | leave h => exact ⟨[], rfl, .inl ⟨h, rfl⟩⟩
    | fall h ht => exact ⟨_, rfl, .inr (.inl ⟨h, ht.runs⟩)⟩
    | jump h ht => exact ⟨_, rfl, .inr (.inr (.inl ⟨_, h, ht.runs⟩))⟩
    | restart h ht => exact ⟨_, rfl, .inr (.inr (.inr ⟨h, ht.runs⟩))⟩
  · rintro ⟨ops', rfl, ⟨h, rfl⟩ | ⟨h, hrun⟩ | ⟨l, h, hrun⟩ | ⟨h, hrun⟩⟩
    · exact ⟨_, .leave h, rfl⟩
    · obtain ⟨t, ht, rfl⟩ := hrun.path .fall
      exact ⟨_, .fall h ht, rfl⟩
    · obtain ⟨t, ht, rfl⟩ := hrun.path .jump
      exact ⟨_, .jump h ht, rfl⟩
    · obtain ⟨t, ht, rfl⟩ := hrun.path .start
      exact ⟨_, .restart h ht, rfl⟩

variable (next) in
/-- Only goes on to what is behind it. -/
def Straight (a : α) : Prop := next a = [.fall]

theorem runs_straight {ins : List (ι × α)} (hins : ∀ y ∈ ins, Straight next y.2) :
    Runs next code (ins ++ rest) ops ↔ ∃ ops', ops = ins.map (·.2) ++ ops' ∧ Runs next code rest ops' := by
  induction ins generalizing ops with
  | nil => simp
  | cons y ins ih =>
    have hy : next y.2 = [.fall] := hins y List.mem_cons_self
    rw [List.cons_append, runs_cons, hy]
    simp only [List.mem_singleton, reduceCtorEq, false_and, exists_false, or_false, false_or, true_and,
      ih fun z hz => hins z (List.mem_cons_of_mem _ hz)]
    constructor
    · rintro ⟨_, rfl, ops', rfl, hrun⟩
      exact ⟨ops', rfl, hrun⟩
    · rintro ⟨ops', rfl, hrun⟩
      exact ⟨_, rfl, ops', rfl, hrun⟩

/-! ## Weaving -/

/-- What is written at the top, in front of an instruction but behind its label's jumps, and in front
of it at its label. -/
structure Weave (ι α : Type) where
  top : List α
  before : ι × α → List α
  atLabel : ι × α → List α

variable (w : Weave ι α)

/-- What is executed for an instruction that is reached in this way. -/
def Weave.expand : Arrival × ι × α → List α
  | (.start, x) => w.top ++ (w.before x ++ (w.atLabel x ++ [x.2]))
  | (.fall, x) => w.before x ++ (w.atLabel x ++ [x.2])
  | (.jump, x) => w.atLabel x ++ [x.2]

variable (free : ι → Prop)

/-- The code for one instruction. What is jumped to carries its label; the other labels are free. -/
structure Piece (x : ι × α) (front back : List (ι × α)) (l : ι) : Prop where
  front_ops : front.map (·.2) = w.before x
  front_free : ∀ y ∈ front, free y.1
  back_ops : back.map (·.2) = w.atLabel x
  back_label : ((back ++ [(l, x.2)]).map (·.1)).head? = some x.1
  back_free : ∀ y ∈ (back ++ [(l, x.2)]).tail, free y.1

inductive Woven : List (ι × α) → List (ι × α) → Prop
  | nil : Woven [] []
  | cons {x front back l code code'} : Piece w free x front back l → Woven code code' →
      Woven (x :: code) (front ++ (back ++ (l, x.2) :: code'))

/-- The place in the woven code for an instruction that is reached in this way. -/
def Enters (top : List (ι × α)) : Arrival → List (ι × α) → List (ι × α) → Prop
  | .start, pos, pos' => ∃ body, Woven w free pos body ∧ pos' = top ++ body
  | .fall, pos, pos' => Woven w free pos pos'
  | .jump, pos, pos' => (pos = [] ∧ pos' = []) ∨ ∃ x rest front back l rest', pos = x :: rest ∧
      Piece w free x front back l ∧ Woven w free rest rest' ∧ pos' = back ++ (l, x.2) :: rest'

variable (next) in
/-- The inserted code only goes on, and nothing jumps to a free label. -/
structure Inserts (code top : List (ι × α)) : Prop where
  top_ops : top.map (·.2) = w.top
  top_free : ∀ y ∈ top, free y.1
  top_straight : ∀ a ∈ w.top, Straight next a
  before_straight : ∀ x ∈ code, ∀ a ∈ w.before x, Straight next a
  at_straight : ∀ x ∈ code, ∀ a ∈ w.atLabel x, Straight next a
  targets : ∀ x ∈ code, ∀ l, .jump l ∈ next x.2 → ¬ free l

variable {w free} {top body pos' : List (ι × α)}

theorem behind_free {l : ι} (hl : ¬ free l) {front : List (ι × α)} (hfree : ∀ y ∈ front, free y.1) :
    behind (front ++ body) l = behind body l := by
  unfold behind
  rw [List.dropWhile_append_of_pos]
  intro y hy
  simpa using fun h : y.1 = l => hl (h ▸ hfree y hy)

/-- A jump reaches the code at the label in both. -/
theorem Woven.enters_jump {l : ι} (hl : ¬ free l) (h : Woven w free pos body) :
    Enters w free top .jump (behind pos l) (behind body l) := by
  induction h with
  | nil => exact .inl ⟨rfl, rfl⟩
  | @cons x front back l₁ code code' hp hw ih =>
    rw [behind_free hl hp.front_free]
    obtain ⟨y, ys, hys⟩ : ∃ y ys, back ++ [(l₁, x.2)] = y :: ys := List.exists_cons_of_ne_nil (by simp)
    have hlabel := hp.back_label
    have hfree := hp.back_free
    have hsplit : back ++ (l₁, x.2) :: code' = y :: (ys ++ code') := by
      rw [← List.cons_append, ← hys, List.append_assoc]
      rfl
    rw [hys] at hlabel hfree
    simp only [List.map_cons, List.head?_cons, Option.some.injEq] at hlabel
    by_cases hx : x.1 = l
    · have hpos : behind (x :: code) l = x :: code := List.dropWhile_cons_of_neg (by simp [hx])
      have hbody : behind (back ++ (l₁, x.2) :: code') l = back ++ (l₁, x.2) :: code' := by
        rw [hsplit]
        exact List.dropWhile_cons_of_neg (by simp [hlabel, hx])
      rw [hpos, hbody]
      exact .inr ⟨x, code, front, back, l₁, code', rfl, hp, hw, rfl⟩
    · have hpos : behind (x :: code) l = behind code l := List.dropWhile_cons_of_pos (by simp [hx])
      have hbody : behind (back ++ (l₁, x.2) :: code') l = behind code' l := by
        rw [hsplit]
        refine (List.dropWhile_cons_of_pos (by simp [hlabel, hx])).trans ?_
        exact behind_free hl hfree
      rw [hpos, hbody]
      exact ih

omit [DecidableEq ι] in
/-- The code that is passed up to the instruction itself. -/
theorem Enters.cons (hi : Inserts next w free code top) (hx : x ∈ code) (h : Enters w free top a (x :: rest) pos') :
    ∃ ins l rest', pos' = ins ++ (l, x.2) :: rest' ∧ ins.map (·.2) ++ [x.2] = w.expand (a, x) ∧
      (∀ y ∈ ins, Straight next y.2) ∧ Woven w free rest rest' := by
  have hbefore : ∀ front : List (ι × α), front.map (·.2) = w.before x → ∀ y ∈ front, Straight next y.2 :=
    fun front hf y hy => hi.before_straight x hx _ (hf ▸ List.mem_map_of_mem hy)
  have hat : ∀ back : List (ι × α), back.map (·.2) = w.atLabel x → ∀ y ∈ back, Straight next y.2 :=
    fun back hb y hy => hi.at_straight x hx _ (hb ▸ List.mem_map_of_mem hy)
  cases a with
  | start =>
    obtain ⟨body, hw, rfl⟩ := h
    obtain _ | @⟨_, front, back, l, _, code', hp, hw⟩ := hw
    refine ⟨top ++ (front ++ back), l, code', by simp, ?_, fun y hy => ?_, hw⟩
    · simp [Weave.expand, hp.front_ops, hp.back_ops, hi.top_ops]
    · rcases List.mem_append.1 hy with hy | hy
      · exact hi.top_straight _ (hi.top_ops ▸ List.mem_map_of_mem hy)
      · exact (List.mem_append.1 hy).elim (hbefore front hp.front_ops y) (hat back hp.back_ops y)
  | fall =>
    obtain _ | @⟨_, front, back, l, _, code', hp, hw⟩ := h
    refine ⟨front ++ back, l, code', by simp, ?_, fun y hy => ?_, hw⟩
    · simp [Weave.expand, hp.front_ops, hp.back_ops]
    · exact (List.mem_append.1 hy).elim (hbefore front hp.front_ops y) (hat back hp.back_ops y)
  | jump =>
    obtain ⟨h, -⟩ | ⟨y, rest₁, front, back, l, rest', heq, hp, hw, rfl⟩ := h
    · cases h
    · cases heq
      refine ⟨back, l, rest', rfl, ?_, hat back hp.back_ops, hw⟩
      simp [Weave.expand, hp.back_ops]

theorem Enters.nil {code' : List (ι × α)} (hi : Inserts next w free code top) (h : Enters w free top a [] pos') :
    ¬ Runs next code' pos' ops := by
  cases a with
  | start =>
    obtain ⟨body, hw, rfl⟩ := h
    cases hw
    rw [runs_straight fun y hy => hi.top_straight _ (hi.top_ops ▸ List.mem_map_of_mem hy)]
    rintro ⟨_, -, hrun⟩
    exact not_runs_nil hrun
  | fall =>
    cases h
    exact not_runs_nil
  | jump =>
    obtain ⟨-, rfl⟩ | ⟨y, rest, _, _, _, _, heq, -⟩ := h
    · exact not_runs_nil
    · cases heq

section Simulation

variable (hi : Inserts next w free code top) (hw : Woven w free code body)

include hi hw

/-- A jump of the original goes to the same instruction in the woven code. -/
theorem enters_behind {l : ι} (hx : x ∈ code) (hl : .jump l ∈ next x.2) :
    Enters w free top .jump (behind code l) (behind (top ++ body) l) := by
  have hfree := hi.targets x hx l hl
  rw [behind_free hfree hi.top_free]
  exact hw.enters_jump hfree

theorem path_woven (hsub : pos <:+ code) (h : Path next code a pos t) (he : Enters w free top a pos pos') :
    Runs next (top ++ body) pos' (t.flatMap w.expand) := by
  induction h generalizing pos' with
  | @leave a x rest hn =>
    obtain ⟨ins, l, rest', rfl, hexp, hstr, -⟩ := he.cons hi (hsub.subset List.mem_cons_self)
    rw [List.flatMap_singleton, ← hexp]
    exact (runs_straight hstr).2 ⟨_, rfl, runs_cons.2 ⟨[], rfl, .inl ⟨hn, rfl⟩⟩⟩
  | @fall a x rest t hn _ ih =>
    obtain ⟨ins, l, rest', rfl, hexp, hstr, hrest⟩ := he.cons hi (hsub.subset List.mem_cons_self)
    have hrun := ih ((List.suffix_cons x rest).trans hsub) hrest
    rw [List.flatMap_cons, ← hexp, List.append_assoc]
    exact (runs_straight hstr).2 ⟨_, rfl, runs_cons.2 ⟨_, rfl, .inr (.inl ⟨hn, hrun⟩)⟩⟩
  | @jump a x rest t l₁ hn _ ih =>
    have hx : x ∈ code := hsub.subset List.mem_cons_self
    obtain ⟨ins, l, rest', rfl, hexp, hstr, -⟩ := he.cons hi hx
    have hrun := ih (List.dropWhile_suffix _) (enters_behind hi hw hx hn)
    rw [List.flatMap_cons, ← hexp, List.append_assoc]
    exact (runs_straight hstr).2 ⟨_, rfl, runs_cons.2 ⟨_, rfl, .inr (.inr (.inl ⟨l₁, hn, hrun⟩))⟩⟩
  | @restart a x rest t hn _ ih =>
    obtain ⟨ins, l, rest', rfl, hexp, hstr, -⟩ := he.cons hi (hsub.subset List.mem_cons_self)
    have hrun := ih (List.suffix_refl code) ⟨body, hw, rfl⟩
    rw [List.flatMap_cons, ← hexp, List.append_assoc]
    exact (runs_straight hstr).2 ⟨_, rfl, runs_cons.2 ⟨_, rfl, .inr (.inr (.inr ⟨hn, hrun⟩))⟩⟩

theorem runs_woven (hsub : pos <:+ code) (h : Runs next (top ++ body) pos' ops) (he : Enters w free top a pos pos') :
    ∃ t, Path next code a pos t ∧ t.flatMap w.expand = ops := by
  -- Every instruction of the original is one of the run, so the run gets shorter.
  induction hn : ops.length using Nat.strong_induction_on generalizing ops pos pos' a with
  | _ n ih =>
    cases pos with
    | nil => exact absurd h (he.nil hi)
    | cons x rest =>
      have hx : x ∈ code := hsub.subset List.mem_cons_self
      obtain ⟨ins, l, rest', rfl, hexp, hstr, hrest⟩ := he.cons hi hx
      obtain ⟨ops₁, rfl, h₁⟩ := (runs_straight hstr).1 h
      obtain ⟨ops₂, rfl, h₂⟩ := runs_cons.1 h₁
      have hlt : ops₂.length < n := by
        rw [← hn, List.length_append, List.length_cons]
        omega
      have hops : ∀ t : List (Arrival × ι × α), t.flatMap w.expand = ops₂ →
          ((a, x) :: t).flatMap w.expand = ins.map (·.2) ++ x.2 :: ops₂ := by
        rintro t rfl
        rw [List.flatMap_cons, ← hexp, List.append_assoc]
        rfl
      rcases h₂ with ⟨hnext, rfl⟩ | ⟨hnext, h⟩ | ⟨l₁, hnext, h⟩ | ⟨hnext, h⟩
      · exact ⟨[(a, x)], .leave hnext, hops [] rfl⟩
      · obtain ⟨t, ht, heq⟩ := ih _ hlt (a := .fall) ((List.suffix_cons x rest).trans hsub) h hrest rfl
        exact ⟨(a, x) :: t, .fall hnext ht, hops t heq⟩
      · obtain ⟨t, ht, heq⟩ := ih _ hlt (List.dropWhile_suffix _) h (enters_behind hi hw hx hnext) rfl
        exact ⟨(a, x) :: t, .jump hnext ht, hops t heq⟩
      · obtain ⟨t, ht, heq⟩ := ih _ hlt (a := .start) (List.suffix_refl code) h ⟨body, hw, rfl⟩ rfl
        exact ⟨(a, x) :: t, .restart hnext ht, hops t heq⟩

/-- The runs of the woven code are those of the original, with the inserted code written in. -/
theorem runs_woven_iff :
    Runs next (top ++ body) (top ++ body) ops ↔ ∃ t, Complete next code t ∧ t.flatMap w.expand = ops := by
  constructor
  · intro h
    exact runs_woven hi hw (a := .start) (List.suffix_refl code) h ⟨body, hw, rfl⟩
  · rintro ⟨t, ht, rfl⟩
    exact path_woven hi hw (List.suffix_refl code) ht ⟨body, hw, rfl⟩

end Simulation

end Egalito.Lib
