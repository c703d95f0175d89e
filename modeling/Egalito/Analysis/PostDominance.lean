import Egalito.Analysis.DominanceExact
/-!
# Post-dominators of the entry

`getPostDominators` of `analysis/dominance.cpp` takes the dominators of the
first exit and intersects them with those of the other exits. The list that it
starts from goes up the tree and is not sorted, but `std::set_intersection` is
for sorted ranges.
-/

open Relation Egalito.Lib

namespace Egalito.Analysis

/-- `std::set_intersection`, a merge of two ranges. -/
def setIntersection : List Nat → List Nat → List Nat
  | x :: xs, y :: ys =>
    if x < y then setIntersection xs (y :: ys)
    else if y < x then setIntersection (x :: xs) ys
    else x :: setIntersection xs ys
  | _, _ => []
termination_by xs ys => xs.length + ys.length

namespace Dominance

/-- The loop over the exits after the first. -/
def capExits (dom : Dominance) (fuel : Nat) : List Nat → List Nat → Option (List Nat)
  | [], pdom => some pdom
  | exit :: exits, pdom => do
    let pdom2 := (← dom.getDominators fuel exit).insertionSort (· ≤ ·)
    let pdom := setIntersection pdom pdom2
    if pdom.isEmpty then return pdom else dom.capExits fuel exits pdom

/-- The argument is not used, and `idMap` is written but not read again. -/
def getPostDominators (dom : Dominance) (fuel _id : Nat) : Option (List Nat × Dominance) := do
  let order ← genOrder dom.cfg.toGraph 1 .preorder false fuel 0
  let dom := { dom with idMap := fillMap order dom.idMap }
  match order.filter fun id => (dom.cfg.links 1 id).isEmpty with
  | [] => return ([], dom)
  | exit :: exits => return (← dom.capExits fuel exits (← dom.getDominators fuel exit), dom)

end Dominance

/-! ## The merge -/

section Merge

variable {xs ys : List Nat}

theorem mem_of_mem_setIntersection {z : Nat} (h : z ∈ setIntersection xs ys) : z ∈ xs ∧ z ∈ ys := by
  fun_induction setIntersection xs ys with
  | case1 x xs y ys hlt ih =>
    obtain ⟨hx, hy⟩ := ih h
    exact ⟨List.mem_cons_of_mem x hx, hy⟩
  | case2 x xs y ys _ hlt ih =>
    obtain ⟨hx, hy⟩ := ih h
    exact ⟨hx, List.mem_cons_of_mem y hy⟩
  | case3 x xs y ys hxy hyx ih =>
    obtain rfl : x = y := by omega
    rcases List.mem_cons.1 h with rfl | h
    · exact ⟨List.mem_cons_self, List.mem_cons_self⟩
    · obtain ⟨hx, hy⟩ := ih h
      exact ⟨List.mem_cons_of_mem x hx, List.mem_cons_of_mem x hy⟩
  | case4 => cases h

/-- What is below the first element of the left range is passed over. -/
theorem le_of_mem_setIntersection {x z : Nat} (hsorted : ys.Pairwise (· ≤ ·))
    (h : z ∈ setIntersection (x :: xs) ys) : x ≤ z := by
  induction ys with
  | nil => simp [setIntersection] at h
  | cons y ys ih =>
    have hmem := (mem_of_mem_setIntersection h).2
    rw [setIntersection] at h
    by_cases hxy : x < y
    · rcases List.mem_cons.1 hmem with rfl | hz
      · exact hxy.le
      · exact hxy.le.trans (List.rel_of_pairwise_cons hsorted hz)
    · rw [if_neg hxy] at h
      by_cases hyx : y < x
      · rw [if_pos hyx] at h
        exact ih (List.Pairwise.of_cons hsorted) h
      · rcases List.mem_cons.1 hmem with rfl | hz
        · omega
        · have := List.rel_of_pairwise_cons hsorted hz
          omega

end Merge

/-! ## The exits -/

/-- A reached node without forward links. -/
def ControlFlowGraph.IsExit (cfg : ControlFlowGraph) (id : Nat) : Prop :=
  ReflTransGen (cfg.toGraph.Edge 1) 0 id ∧ cfg.links 1 id = []

/-- On every path from the entry to an exit. -/
def ControlFlowGraph.PostDominatesEntry (cfg : ControlFlowGraph) (d : Nat) : Prop :=
  ∀ e, cfg.IsExit e → ∀ p, PathTo (cfg.toGraph.Edge 1) 0 p e → d ∈ p

section Exits

variable {cfg : ControlFlowGraph} {order : List Nat} {dom : Dominance} {fuel : Nat}

/-- When the entry is an exit, there is no other. -/
theorem eq_zero_of_isExit_zero (h0 : cfg.links 1 0 = []) {e : Nat} (he : cfg.IsExit e) : e = 0 := by
  rcases ReflTransGen.cases_head he.1 with h | ⟨v, hedge, -⟩
  · exact h.symm
  · rw [Graph.Edge, h0] at hedge
    cases hedge

theorem root_mem_path {E : Nat → Nat → Prop} {root v : Nat} {p : List Nat} (h : PathTo E root p v) : root ∈ p := by
  induction h with
  | start => exact List.mem_cons_self
  | step _ _ ih => exact List.mem_cons_of_mem _ ih

theorem capExits_subset {exits pdom l : List Nat} (h : dom.capExits fuel exits pdom = some l) : ∀ d ∈ l, d ∈ pdom := by
  induction exits generalizing pdom with
  | nil =>
    cases h
    exact fun _ hd => hd
  | cons exit exits ih =>
    rw [Dominance.capExits, Option.bind_eq_bind, Option.bind_eq_some_iff] at h
    obtain ⟨pdom2, -, h⟩ := h
    intro d hd
    dsimp only at h
    split at h
    · cases h
      exact (mem_of_mem_setIntersection hd).1
    · exact (mem_of_mem_setIntersection (ih h d hd)).1

theorem capExits_total (hs : Settled cfg order dom.idoms) (hfuel : order.length ≤ fuel) {exits : List Nat}
    (hexits : ∀ e ∈ exits, e ∈ order) (pdom : List Nat) : ∃ l, dom.capExits fuel exits pdom = some l := by
  induction exits generalizing pdom with
  | nil => exact ⟨pdom, rfl⟩
  | cons exit exits ih =>
    obtain ⟨hexit, hexits⟩ := List.forall_mem_cons.1 hexits
    have hlt := List.idxOf_lt_length_of_mem hexit
    obtain ⟨pdom2, hpdom2, -⟩ := getDominators_spec hs hexit (show _ < fuel by omega)
    simp only [Dominance.capExits, hpdom2, Option.bind_eq_bind, Option.bind_some]
    split
    · exact ⟨_, rfl⟩
    · exact ih hexits _

/-- The first intersection loses the entry. -/
theorem zero_notMem_capExits {exit exit' : Nat} {exits pdom l : List Nat} (hexit : exit ≠ 0)
    (hpdom : dom.getDominators fuel exit = some pdom) (h : dom.capExits fuel (exit' :: exits) pdom = some l) :
    0 ∉ l := by
  obtain ⟨tail, rfl⟩ : ∃ tail, pdom = exit :: tail := by
    cases fuel with
    | zero => cases hpdom
    | succ fuel =>
      rw [Dominance.getDominators, if_pos hexit, Option.bind_eq_bind, Option.bind_eq_some_iff] at hpdom
      obtain ⟨idom, -, hpdom⟩ := hpdom
      rw [Option.bind_eq_bind, Option.bind_eq_some_iff] at hpdom
      obtain ⟨tail, -, ⟨⟩⟩ := hpdom
      exact ⟨tail, rfl⟩
  rw [Dominance.capExits, Option.bind_eq_bind, Option.bind_eq_some_iff] at h
  obtain ⟨pdom2, -, h⟩ := h
  have hfirst : 0 ∉ setIntersection (exit :: tail) (pdom2.insertionSort (· ≤ ·)) := fun h0 => by
    have := le_of_mem_setIntersection (List.pairwise_insertionSort (· ≤ ·) pdom2) h0
    omega
  dsimp only at h
  split at h
  · cases h
    exact hfirst
  · exact fun h0 => hfirst (capExits_subset h 0 h0)

end Exits

/-- With enough fuel and an exit, the list has exactly the post-dominators of the entry if and only if there is
exactly one exit. -/
theorem postDominators_exact_iff (cfg : ControlFlowGraph) (fuel : Nat)
    (hfuel : (cfg.count + 2) * (cfg.count + 2) ≤ fuel) (hexit : ∃ e, cfg.IsExit e) :
    ∃ dom l dom', Dominance.make cfg fuel = some dom ∧ dom.getPostDominators fuel 0 = some (l, dom') ∧
      ((∀ d, d ∈ l ↔ cfg.PostDominatesEntry d) ↔ ∃! e, cfg.IsExit e) := by
  obtain ⟨dom, order, hmake, rfl, hn, hlength, hsettled⟩ := make_spec cfg hfuel
  have hcount : dom.cfg.count ≤ fuel := by nlinarith
  have hlen : order.length ≤ fuel := hlength.trans hcount
  obtain ⟨preorder, hpre, hnodup, hmem⟩ := genOrder_preorder dom.cfg.toGraph dom.cfg.nonempty hcount
  have hexits : ∀ e, e ∈ (preorder.filter fun id => (dom.cfg.links 1 id).isEmpty) ↔ dom.cfg.IsExit e := by
    intro e
    rw [List.mem_filter, hmem, List.isEmpty_iff, ControlFlowGraph.IsExit]
  have horder : ∀ {e}, dom.cfg.IsExit e → e ∈ order := fun he => (hn.mem_iff _).2 he.1
  have hexits_nodup := hnodup.filter fun id => (dom.cfg.links 1 id).isEmpty
  set dom' : Dominance := { dom with idMap := Dominance.fillMap preorder dom.idMap }
  have hsettled' : Settled dom.cfg order dom'.idoms := hsettled
  cases hcase : preorder.filter fun id => (dom.cfg.links 1 id).isEmpty with
  | nil =>
    obtain ⟨e, he⟩ := hexit
    rw [← hexits, hcase] at he
    cases he
  | cons exit rest =>
    rw [hcase] at hexits hexits_nodup
    have hexit' := (hexits exit).1 List.mem_cons_self
    have hrest : ∀ e ∈ rest, e ∈ order := fun e he => horder ((hexits e).1 (List.mem_cons_of_mem _ he))
    have hlt := List.idxOf_lt_length_of_mem (horder hexit')
    obtain ⟨pdom, hpdom, habove⟩ := getDominators_spec hsettled' (horder hexit') (show _ < fuel by omega)
    obtain ⟨l, hl⟩ := capExits_total hsettled' hlen hrest pdom
    refine ⟨dom, l, dom', hmake, ?_, ?_⟩
    · simp only [Dominance.getPostDominators, hpre, Option.bind_eq_bind, Option.bind_some, hcase, dom', hpdom, hl]
      rfl
    cases rest with
    | nil =>
      obtain rfl : pdom = l := Option.some.inj hl
      have honly : ∀ e, dom.cfg.IsExit e → e = exit := fun e he => List.mem_singleton.1 ((hexits e).2 he)
      refine iff_of_true (fun d => ?_) ⟨exit, hexit', honly⟩
      rw [habove, hsettled.above_iff hn (horder hexit')]
      constructor
      · intro hd e he
        rw [honly e he]
        exact hd
      · exact fun hd => hd exit hexit'
    | cons exit₂ rest =>
      have hexit₂ := (hexits exit₂).1 (by simp)
      have hne : exit₂ ≠ exit := fun he => by simp [he] at hexits_nodup
      have hexit0 : exit ≠ 0 := by
        rintro rfl
        exact hne (eq_zero_of_isExit_zero hexit'.2 hexit₂)
      refine iff_of_false (fun hd => ?_) fun ⟨e, _, huniq⟩ => hne ((huniq _ hexit₂).trans (huniq _ hexit').symm)
      exact zero_notMem_capExits hexit0 hpdom hl ((hd 0).2 fun e _ p hp => root_mem_path hp)

/-- A fork: 0 to 1 and 2. -/
def forkGraph : ControlFlowGraph where
  count := 3
  links dir id :=
    let links := if dir = 1 then [[1, 2], [], []] else [[], [0], [0]]
    links.getD id []
  links_lt dir := by
    by_cases h : dir = 1
    · simp only [h, if_true]
      decide
    · simp only [h, if_false]
      decide
  transposed u v hu hv := by
    interval_cases u <;> interval_cases v <;> decide
  nonempty := by decide

/-- The entry of a fork is on all paths, but the list is empty. -/
theorem fork_postDominators : (∃ dom dom', Dominance.make forkGraph 25 = some dom ∧
    dom.getPostDominators 25 0 = some ([], dom')) ∧ forkGraph.IsExit 1 ∧ forkGraph.PostDominatesEntry 0 := by
  have hrun : (Dominance.make forkGraph 25).bind (fun dom => (dom.getPostDominators 25 0).map Prod.fst) = some [] := by
    decide +kernel
  obtain ⟨dom, hdom, hpost⟩ := Option.bind_eq_some_iff.1 hrun
  obtain ⟨⟨l, dom'⟩, hl, rfl⟩ := Option.map_eq_some_iff.1 hpost
  have hedge : forkGraph.toGraph.Edge 1 0 1 := by show 1 ∈ [1, 2]; decide
  exact ⟨⟨dom, dom', hdom, hl⟩, ⟨.single hedge, rfl⟩, fun e _ p hp => root_mem_path hp⟩

/-- One step to the only exit. -/
def stepGraph : ControlFlowGraph where
  count := 2
  links dir id :=
    let links := if dir = 1 then [[1], []] else [[], [0]]
    links.getD id []
  links_lt dir := by
    by_cases h : dir = 1
    · simp only [h, if_true]
      decide
    · simp only [h, if_false]
      decide
  transposed u v hu hv := by
    interval_cases u <;> interval_cases v <;> decide
  nonempty := by decide

theorem step_postDominators : ∃ dom l dom', Dominance.make stepGraph 16 = some dom ∧
    dom.getPostDominators 16 0 = some (l, dom') ∧
    ((∀ d, d ∈ l ↔ stepGraph.PostDominatesEntry d) ↔ ∃! e, stepGraph.IsExit e) := by
  have hedge : stepGraph.toGraph.Edge 1 0 1 := by show 1 ∈ [1]; decide
  exact postDominators_exact_iff stepGraph 16 (by decide) ⟨1, .single hedge, rfl⟩

end Egalito.Analysis
