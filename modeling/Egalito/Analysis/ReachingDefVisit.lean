import Egalito.Analysis.ReachingDefOrder
import Egalito.Lib.Schedule
/-!
# The orders of a block

With the transitive closure as dependencies, the visit ends with a schedule,
and every schedule is the visit for some choices.
-/

open Egalito.Lib

namespace Egalito.Analysis.ReachingDef

/-! ## The closure -/

section Closure

variable {killMap : Nat → List Nat} {dest fuel : Nat} {queue visited : List Nat}

def weight (queue : List Nat) : Nat := (queue.map (2 ^ ·)).sum

/-- All that an instruction kills weighs less than the instruction. -/
theorem weight_kills_lt (hlt : ∀ i, ∀ x ∈ killMap i, x < i) (hnodup : ∀ i, (killMap i).Nodup) (p : Nat → Bool)
    (i : Nat) : weight ((killMap i).filter p) < 2 ^ i := by
  unfold weight
  rw [← List.sum_toFinset _ ((hnodup i).filter p)]
  apply Nat.geomSum_lt (le_refl 2)
  intro k hk
  rw [List.mem_toFinset] at hk
  exact hlt i k (List.mem_of_mem_filter hk)

theorem closureLoop_sound (h : closureLoop killMap dest fuel queue visited = true) :
    ∃ i ∈ queue, Relation.TransGen (fun j x => x ∈ killMap j) i dest := by
  induction fuel generalizing queue visited with
  | zero => cases h
  | succ fuel ih =>
    cases queue with
    | nil => cases h
    | cons i queue =>
      unfold closureLoop at h
      split at h
      case isTrue hdest => exact ⟨i, List.mem_cons_self, .single hdest⟩
      case isFalse =>
        obtain ⟨x, hx, hpath⟩ := ih h
        rcases List.mem_append.1 hx with hx | hx
        · exact ⟨x, List.mem_cons_of_mem _ hx, hpath⟩
        · exact ⟨i, List.mem_cons_self, .head (List.mem_of_mem_filter hx) hpath⟩

/-- What was visited and waits no more has its kills visited or waiting, without the target. -/
def Explored (killMap : Nat → List Nat) (dest : Nat) (queue visited : List Nat) : Prop :=
  ∀ v ∈ visited, v ∈ queue ∨ ∀ x ∈ killMap v, x ≠ dest ∧ (x ∈ visited ∨ x ∈ queue)

theorem Explored.step {i : Nat} (h : Explored killMap dest (i :: queue) visited) (hdest : dest ∉ killMap i) :
    Explored killMap dest (queue ++ (killMap i).filter (· ∉ i :: visited)) (i :: visited) := by
  intro v hv
  by_cases hvi : v = i
  · subst hvi
    refine .inr fun x hx => ⟨fun hxd => hdest (hxd ▸ hx), ?_⟩
    by_cases hmem : x ∈ v :: visited
    · exact .inl hmem
    · exact .inr (List.mem_append_right _ (List.mem_filter.2 ⟨hx, decide_eq_true hmem⟩))
  · rcases h v ((List.mem_cons.1 hv).resolve_left hvi) with hqueue | hkills
    · exact .inl (List.mem_append_left _ ((List.mem_cons.1 hqueue).resolve_left hvi))
    · refine .inr fun x hx => ⟨(hkills x hx).1, ?_⟩
      rcases (hkills x hx).2 with hvisited | hqueue
      · exact .inl (List.mem_cons_of_mem _ hvisited)
      · rcases List.mem_cons.1 hqueue with rfl | hqueue
        · exact .inl List.mem_cons_self
        · exact .inr (List.mem_append_left _ hqueue)

/-- When nothing waits, the visited ones are closed under the kills. -/
theorem Explored.unreachable (h : Explored killMap dest [] visited) {v : Nat} (hv : v ∈ visited) :
    ¬ Relation.TransGen (fun j x => x ∈ killMap j) v dest := by
  intro hpath
  induction hpath using Relation.TransGen.head_induction_on with
  | single hx => exact ((h _ hv).resolve_left List.not_mem_nil _ hx).1 rfl
  | head hx _ ih =>
    apply ih
    exact ((h _ hv).resolve_left List.not_mem_nil _ hx).2.resolve_right List.not_mem_nil

theorem closureLoop_complete (hlt : ∀ i, ∀ x ∈ killMap i, x < i) (hnodup : ∀ i, (killMap i).Nodup)
    (hfuel : weight queue ≤ fuel) (hexplored : Explored killMap dest queue visited)
    (h : closureLoop killMap dest fuel queue visited = false) :
    ∀ v ∈ visited, ¬ Relation.TransGen (fun j x => x ∈ killMap j) v dest := by
  induction fuel generalizing queue visited with
  | zero =>
    cases queue with
    | nil => exact fun v => hexplored.unreachable
    | cons i queue =>
      have : 0 < 2 ^ i := Nat.two_pow_pos i
      simp only [weight, List.map_cons, List.sum_cons] at hfuel
      omega
  | succ fuel ih =>
    cases queue with
    | nil => exact fun v => hexplored.unreachable
    | cons i queue =>
      unfold closureLoop at h
      split at h
      case isTrue => cases h
      case isFalse hdest =>
        have hweight := weight_kills_lt hlt hnodup (fun x => decide (x ∉ i :: visited)) i
        refine fun v hv => ih ?_ (hexplored.step hdest) h v (List.mem_cons_of_mem _ hv)
        simp only [weight, List.map_append, List.sum_append, List.map_cons, List.sum_cons] at hfuel hweight ⊢
        omega

/-- The search of the queue decides the transitive closure. -/
theorem inKillClosure_iff (hlt : ∀ i, ∀ x ∈ killMap i, x < i) (hnodup : ∀ i, (killMap i).Nodup) (source dest : Nat) :
    inKillClosure killMap source dest = true ↔ Relation.TransGen (fun j x => x ∈ killMap j) source dest := by
  unfold inKillClosure
  constructor
  · intro h
    obtain ⟨i, hi, hpath⟩ := closureLoop_sound h
    rwa [List.mem_singleton.1 hi] at hpath
  · intro hpath
    by_contra h
    refine closureLoop_complete hlt hnodup ?_ ?_ (Bool.eq_false_of_not_eq_true h) source List.mem_cons_self hpath
    · simp [weight]
    · intro v hv
      exact .inl hv

end Closure

theorem Chain.lt {effects : List Effect} {j i : Nat} (h : Chain effects j i) : i < j := by
  induction h with
  | single h => exact h.1
  | tail _ h ih => exact Nat.lt_trans h.1 ih

theorem Chain.lt_length {effects : List Effect} {j i : Nat} (h : Chain effects j i) : j < effects.length := by
  obtain ⟨x, ⟨-, -, e, -, he, -⟩, -⟩ := Relation.TransGen.head'_iff.1 h
  exact (List.getElem?_eq_some_iff.1 he).1

/-- The dependencies of the visit are the chains of conflicts. -/
theorem mem_computeDependencyClosure {block : List Instruction} {s : State} (h : Tracks (block.map effectOf) s)
    (source dest : Nat) :
    dest ∈ computeDependencyClosure block s.killMap false source ↔ Chain (block.map effectOf) source dest := by
  have hlt : ∀ i, ∀ x ∈ s.killMap i, x < i := fun i x hx => (h.kill_sound hx).1
  unfold computeDependencyClosure
  rw [List.mem_filter, Bool.false_and, Bool.not_false, Bool.true_and, inKillClosure_iff hlt h.kill_nodup,
    List.mem_range]
  refine ⟨fun hmem => h.transGen_iff.1 hmem.2, fun hchain => ⟨?_, h.transGen_iff.2 hchain⟩⟩
  have hsource := hchain.lt_length
  rw [List.length_map] at hsource
  exact Nat.lt_trans hchain.lt hsource

/-! ## The visit -/

section Visit

variable {closure : Nat → List Nat} {available visited order : List Nat}

def Covers (closure : Nat → List Nat) (a b : Nat) : Prop := b ∈ closure a

theorem mem_group {a : Nat} : a ∈ available.filter (areDependenciesCovered closure visited) ↔
    a ∈ available ∧ ∀ b, Covers closure a b → b ∈ visited := by
  rw [List.mem_filter]
  unfold areDependenciesCovered Covers
  simp

/-- The visit takes every instruction, each after what it depends on. -/
theorem visitInstructionGroups_schedules (hrank : ∀ a b, Covers closure a b → b < a) (fuel : Nat)
    (hfuel : available.length < fuel)
    (hknown : ∀ a ∈ available, ∀ b, Covers closure a b → b ∈ visited ∨ b ∈ available) (choices : Nat → Nat) :
    ∃ order, visitInstructionGroups closure fuel available visited choices = some order ∧
      Schedules (Covers closure) available visited order := by
  induction fuel generalizing available visited choices with
  | zero => omega
  | succ fuel ih =>
    unfold visitInstructionGroups
    split
    case h_1 hgroup =>
      by_cases hempty : available = []
      · subst hempty
        exact ⟨[], by simp, .done⟩
      · obtain ⟨a, ha, hready⟩ := exists_ready id hrank hknown hempty
        have hmem := mem_group.2 ⟨ha, hready⟩
        rw [hgroup] at hmem
        cases hmem
    case h_2 first rest hgroup =>
      have hindex : choices 0 % (rest.length + 1) < (first :: rest).length := Nat.mod_lt _ (Nat.succ_pos _)
      dsimp only
      rw [List.getD_eq_getElem?_getD, List.getElem?_eq_getElem hindex, Option.getD_some]
      generalize hchosen : (first :: rest)[choices 0 % (rest.length + 1)] = chosen
      have hmem : chosen ∈ available.filter (areDependenciesCovered closure visited) := by
        rw [hgroup, ← hchosen]
        exact List.getElem_mem hindex
      obtain ⟨havailable, hready⟩ := mem_group.1 hmem
      have hlength := List.length_erase_of_mem havailable
      have hpos := List.length_pos_of_mem havailable
      have hknown' : ∀ a ∈ available.erase chosen, ∀ b, Covers closure a b →
          b ∈ chosen :: visited ∨ b ∈ available.erase chosen := fun a ha b hab => by
        rcases hknown a (List.mem_of_mem_erase ha) b hab with hb | hb
        · exact .inl (List.mem_cons_of_mem _ hb)
        · by_cases hbc : b = chosen
          · exact .inl (hbc ▸ List.mem_cons_self)
          · exact .inr ((List.mem_erase_of_ne hbc).2 hb)
      obtain ⟨order, horder, hschedules⟩ := ih (by omega) hknown' fun n => choices (n + 1)
      exact ⟨chosen :: order, by rw [horder]; rfl, .take havailable hready hschedules⟩

/-- Every schedule is the visit for some choices. -/
theorem exists_choices (h : Schedules (Covers closure) available visited order) (fuel : Nat)
    (hfuel : available.length < fuel) :
    ∃ choices, visitInstructionGroups closure fuel available visited choices = some order := by
  induction h generalizing fuel with
  | done =>
    obtain ⟨fuel, rfl⟩ : ∃ n, fuel = n + 1 := ⟨fuel - 1, by omega⟩
    exact ⟨fun _ => 0, by simp [visitInstructionGroups]⟩
  | @take available visited order a ha hready _ ih =>
    obtain ⟨fuel, rfl⟩ : ∃ n, fuel = n + 1 := ⟨fuel - 1, by omega⟩
    have hlength := List.length_erase_of_mem ha
    have hpos := List.length_pos_of_mem ha
    obtain ⟨choices, hchoices⟩ := ih fuel (by omega)
    obtain ⟨n, hn, hget⟩ := List.getElem_of_mem (mem_group.2 ⟨ha, hready⟩)
    -- First the place of the instruction in the group, then what the rest of the order needs.
    refine ⟨fun i => if i = 0 then n else choices (i - 1), ?_⟩
    unfold visitInstructionGroups
    split
    case h_1 hgroup => simp [hgroup] at hn
    case h_2 first rest hgroup =>
      simp only [hgroup] at hn hget
      have hmod : n % (rest.length + 1) = n := Nat.mod_eq_of_lt hn
      simp only [reduceIte, Nat.add_one_ne_zero, Nat.add_sub_cancel]
      rw [hmod, List.getD_eq_getElem?_getD, List.getElem?_eq_getElem hn, Option.getD_some, hget, hchoices]
      rfl

end Visit

end Egalito.Analysis.ReachingDef
