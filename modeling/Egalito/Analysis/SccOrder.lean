import Egalito.Analysis.Scc
import Egalito.Lib.Run
/-!
# The order of `SccOrder`

What `gen(0)` and `genFull(0)` return, in both directions: the components of the
visited nodes, ordered along the edges, each in reverse postorder. The last
point compares the walk with that of a `ReversePostorder`, by a simulation.
-/

open Relation Egalito.Lib

namespace Egalito.Analysis

/-! ## Two collectors on the same walk -/

section Simulation

variable {σ τ : Type} {graph : Graph} {dir : Int} {collector : Collector σ} {collector' : Collector τ}

/-- A relation that the calls of a walk keep is kept by the walk. -/
theorem walkHelper_simulation (R : σ → τ → Prop)
    (hpre : ∀ id s t, R s t → R (collector.preVisit id s) (collector'.preVisit id t))
    (hlate : ∀ id n s t, R s t → R (collector.lateVisit id n s) (collector'.lateVisit id n t))
    (hpost : ∀ id s t s', R s t → collector.postVisit id s = some s' →
      ∃ t', collector'.postVisit id t = some t' ∧ R s' t')
    {fuel id : Nat} {visited visited' : Nat → Bool} {s s' : σ} {t : τ} (hst : R s t)
    (h : walkHelper graph collector dir fuel id (visited, s) = some (visited', s')) :
    ∃ t', walkHelper graph collector' dir fuel id (visited, t) = some (visited', t') ∧ R s' t' := by
  induction fuel generalizing id visited visited' s s' t with
  | zero => cases h
  | succ fuel ih =>
    have hloop : ∀ (links : List Nat) (st : (Nat → Bool) × σ) (t : τ) (st' : (Nat → Bool) × σ), R st.2 t →
        links.foldlM (fun st n => if !st.1 n then walkHelper graph collector dir fuel n st
          else some (st.1, collector.lateVisit id n st.2)) st = some st' →
        ∃ t', links.foldlM (fun st n => if !st.1 n then walkHelper graph collector' dir fuel n st
          else some (st.1, collector'.lateVisit id n st.2)) (st.1, t) = some (st'.1, t') ∧ R st'.2 t' := by
      intro links
      induction links with
      | nil =>
        intro st t st' hR hrun
        cases hrun
        exact ⟨t, rfl, hR⟩
      | cons n links ihlinks =>
        intro st t st' hR hrun
        rw [List.foldlM_cons, Option.bind_eq_bind, Option.bind_eq_some_iff] at hrun
        obtain ⟨st₁, h₁, hrun⟩ := hrun
        have hone : ∃ t₁, (if !st.1 n then walkHelper graph collector' dir fuel n (st.1, t)
            else some (st.1, collector'.lateVisit id n t)) = some (st₁.1, t₁) ∧ R st₁.2 t₁ := by
          split at h₁
          case isTrue hn =>
            rw [if_pos hn]
            exact ih hR h₁
          case isFalse hn =>
            cases h₁
            rw [if_neg hn]
            exact ⟨_, rfl, hlate id n _ _ hR⟩
        obtain ⟨t₁, ht₁, hR₁⟩ := hone
        obtain ⟨t', ht', hR'⟩ := ihlinks st₁ t₁ st' hR₁ hrun
        refine ⟨t', ?_, hR'⟩
        rw [List.foldlM_cons]
        simp only [ht₁, Option.bind_eq_bind, Option.bind_some]
        exact ht'
    simp only [walkHelper, Option.bind_eq_bind, Option.bind_eq_some_iff, Option.pure_def, Option.some.injEq] at h ⊢
    obtain ⟨st, hst', s₁, hs₁, heq⟩ := h
    obtain ⟨t₁, ht₁, hR₁⟩ := hloop _ _ (collector'.preVisit id t) st (hpre id s t hst) hst'
    obtain ⟨t', ht', hR'⟩ := hpost id st.2 t₁ s₁ hR₁ hs₁
    obtain ⟨rfl, rfl⟩ := Prod.mk.inj heq
    exact ⟨t', ⟨(st.1, t₁), ht₁, t', ht', rfl⟩, hR'⟩

end Simulation

/-! ## Components are parts of a postorder -/

theorem popUntil_append {id : Nat} {stack poStack : List Nat} {onStack : Nat → Bool} {taken stack' poStack' : List Nat}
    {onStack' : Nat → Bool}
    (h : SccCollection.popUntil id stack poStack onStack = some (taken, stack', poStack', onStack')) :
    poStack = taken ++ poStack' := by
  induction stack generalizing poStack onStack taken with
  | nil => simp [SccCollection.popUntil] at h
  | cons x stack ih =>
    cases poStack with
    | nil => simp [SccCollection.popUntil] at h
    | cons y poStack =>
      rw [SccCollection.popUntil] at h
      split at h
      case isTrue =>
        cases h
        rfl
      case isFalse =>
        simp only [Option.bind_eq_bind, Option.bind_eq_some_iff, Option.pure_def, Option.some.injEq] at h
        obtain ⟨⟨taken₁, stack₁, poStack₁, onStack₁⟩, hrec, heq⟩ := h
        cases heq
        rw [ih hrec, List.cons_append]

/-- The stack of finished nodes follows the current lap, and every component some lap. -/
structure Laps (s : SccCollection) (n : NodeCollection) : Prop where
  length : n.order.length = n.lap + 1
  current : ∃ lap, n.order[n.lap]? = some lap ∧ s.poStack.Sublist lap.reverse
  emitted : ∃ done, s.sccOrder = done ++ [[]] ∧ s.scc = done.length ∧
    ∀ c ∈ done, ∃ lap ∈ n.order, c.Sublist lap.reverse

theorem Laps.postVisit {links : List Nat} {id : Nat} {s s' : SccCollection} {n : NodeCollection} (h : Laps s n)
    (hrun : SccCollection.postVisit links id s = some s') :
    Laps s' { n with order := n.order.modify n.lap (· ++ [id]) } := by
  obtain ⟨lap, hlap, hsub⟩ := h.current
  obtain ⟨done, hdone, hscc, hlaps⟩ := h.emitted
  have hlength : (n.order.modify n.lap (· ++ [id])).length = n.lap + 1 := by rw [List.length_modify, h.length]
  have hcurrent : (n.order.modify n.lap (· ++ [id]))[n.lap]? = some (lap ++ [id]) := by
    rw [List.getElem?_modify_eq, hlap]
    rfl
  have hsub' : (id :: s.poStack).Sublist (lap ++ [id]).reverse := by
    rw [List.reverse_append]
    exact hsub.cons_cons id
  have hold : ∀ c ∈ done, ∃ lap ∈ n.order.modify n.lap (· ++ [id]), c.Sublist lap.reverse := fun c hc => by
    obtain ⟨o, ho, hco⟩ := hlaps c hc
    obtain ⟨i, hi⟩ := List.mem_iff_getElem?.1 ho
    by_cases hil : n.lap = i
    · obtain rfl : lap = o := by rw [hil, hi] at hlap; exact (Option.some.inj hlap).symm
      refine ⟨lap ++ [id], List.mem_of_getElem? hcurrent, hco.trans ?_⟩
      rw [List.reverse_append]
      exact List.sublist_append_right _ _
    · refine ⟨o, List.mem_of_getElem? (i := i) ?_, hco⟩
      rw [List.getElem?_modify_ne _ _ hil, hi]
  unfold SccCollection.postVisit at hrun
  simp only [Option.bind_eq_bind, Option.pure_def] at hrun
  split at hrun
  case isTrue =>
    rw [Option.bind_eq_some_iff] at hrun
    obtain ⟨⟨taken, stack, poStack, onStack⟩, hpop, heq⟩ := hrun
    cases heq
    have hparts := popUntil_append hpop
    rw [hparts] at hsub'
    refine ⟨hlength, ⟨_, hcurrent, (List.sublist_append_right _ _).trans hsub'⟩, done ++ [taken], ?_, by simp [hscc],
      fun c hc => ?_⟩
    · simp only [hdone, hscc]
      congr 1
      rw [List.modify_eq_take_cons_drop (by simp)]
      simp
    · rcases List.mem_append.1 hc with hc | hc
      · exact hold c hc
      · rw [List.mem_singleton.1 hc]
        exact ⟨_, List.mem_of_getElem? hcurrent, (List.sublist_append_left _ _).trans hsub'⟩
  case isFalse =>
    cases hrun
    exact ⟨hlength, ⟨_, hcurrent, hsub'⟩, done, hdone, hscc, hold⟩

theorem walkHelper_laps {graph : Graph} {dir : Int} {fuel id : Nat} {visited visited' : Nat → Bool}
    {s s' : SccCollection} {n : NodeCollection} (h : Laps s n)
    (hrun : walkHelper graph (sccCollection graph dir) dir fuel id (visited, s) = some (visited', s')) :
    ∃ n', walkHelper graph (nodeCollection .postorder true) dir fuel id (visited, n) = some (visited', n') ∧
      Laps s' n' := by
  have hpre : ∀ node (n : NodeCollection), (nodeCollection .postorder true).preVisit node n = n := fun _ n =>
    congrArg (fun order => ({ n with order := order } : NodeCollection)) (List.modify_id n.lap n.order)
  refine walkHelper_simulation Laps (fun id s n h => ?_) (fun id m s n h => ?_)
    (fun id s n s' h hpost => ⟨_, rfl, h.postVisit hpost⟩) h hrun
  · rw [hpre]
    exact ⟨h.length, h.current, h.emitted⟩
  · change Laps (s.lateVisit id m) n
    unfold SccCollection.lateVisit
    split
    · exact ⟨h.length, h.current, h.emitted⟩
    · exact h

/-! ## The two walks -/

/-- What the order has to be, with the nodes it is for and the laps of the reverse postorder. -/
structure SccRight (E : Nat → Nat → Prop) (nodes : Nat → Prop) (order laps : List (List Nat)) : Prop where
  once : order.flatten.Nodup
  visits : ∀ v, v ∈ order.flatten ↔ nodes v
  component : ∀ c ∈ order, IsComponent E c
  forward : ∀ before c after, order = before ++ c :: after → ∀ u ∈ c, ∀ v, E u v → v ∈ c ∨ v ∈ after.flatten
  postorder : ∀ c ∈ order, ∃ lap ∈ laps, c.Sublist lap

section Order

variable {graph : Graph} {dir : Int} {visited : Nat → Bool} {s : SccCollection} {done : List (List Nat)}
  {n : NodeCollection}

variable (graph dir) in
theorem inv_reset : Inv (graph.Edge dir) [] (fun _ => false) (SccCollection.reset .empty) [] := by
  refine ⟨by simp, List.Pairwise.nil, by simp [SccCollection.reset, SccCollection.empty],
    by simp [SccCollection.reset, SccCollection.empty], by simp [SccCollection.reset, SccCollection.empty], by simp,
    by simp, by simp [SccCollection.reset, SccCollection.empty], by simp [SccCollection.reset, SccCollection.empty],
    by simp, by simp [SccCollection.reset, SccCollection.empty], by simp, ⟨rfl, rfl⟩, .nil⟩

/-- Between two walks the path is empty, so the stack is. -/
theorem Inv.stack_eq_nil {E : Nat → Nat → Prop} (h : Inv E [] visited s done) : s.stack = [] := by
  refine List.eq_nil_iff_forall_not_mem.2 fun y hy => ?_
  obtain ⟨x, hx, -⟩ := h.back y hy
  cases hx

/-- The state between two walks. -/
structure Rests (graph : Graph) (dir : Int) (visited : Nat → Bool) (s : SccCollection) (n : NodeCollection)
    (done : List (List Nat)) : Prop where
  inv : Inv (graph.Edge dir) [] visited s done
  poStack : s.poStack = []
  laps : Laps s n
  bound : ∀ v, visited v = true → v < graph.count

variable (graph dir) in
theorem rests_reset : Rests graph dir (fun _ => false) (SccCollection.reset .empty) ⟨[[]], 0⟩ [] :=
  ⟨inv_reset graph dir, rfl, ⟨rfl, ⟨[], rfl, List.Sublist.refl _⟩, [], rfl, rfl, by simp⟩, by simp⟩

theorem reach_lt {u v : Nat} (hu : u < graph.count) (h : ReflTransGen (graph.Edge dir) u v) : v < graph.count :=
  mem_of_reach (S := fun v => v < graph.count) (fun w hw x hedge => graph.links_lt dir w hw x hedge) hu h

theorem unvisited_le : unvisited graph visited ≤ graph.count :=
  List.countP_le_length.trans (List.length_range).le

namespace Rests

theorem tick (h : Rests graph dir visited s n done) :
    Rests graph dir visited s ((nodeCollection .postorder true).tick n) done := by
  refine ⟨h.inv, h.poStack, ⟨?_, ⟨[], ?_, ?_⟩, ?_⟩, h.bound⟩
  · simp [nodeCollection, h.laps.length]
  · simp [nodeCollection, ← h.laps.length]
  · rw [h.poStack]
    exact List.Sublist.refl _
  · obtain ⟨done, hdone, hscc, hlaps⟩ := h.laps.emitted
    refine ⟨done, hdone, hscc, fun c hc => ?_⟩
    obtain ⟨lap, hlap, hsub⟩ := hlaps c hc
    exact ⟨lap, List.mem_append_left _ hlap, hsub⟩

theorem walk (h : Rests graph dir visited s n done) {id : Nat} (hnot : visited id = false) (hid : id < graph.count)
    {fuel : Nat} (hfuel : graph.count ≤ fuel) : ∃ visited' s' n' done',
      walkHelper graph (sccCollection graph dir) dir fuel id (visited, s) = some (visited', s') ∧
      walkHelper graph (nodeCollection .postorder true) dir fuel id (visited, n) = some (visited', n') ∧
      Rests graph dir visited' s' n' done' ∧ Grows graph dir id visited s done visited' s' done' := by
  obtain ⟨visited', s', done', hrun, hinv, hv⟩ := walkHelper_spec h.inv hnot hid (by simp)
    (unvisited_le.trans hfuel)
  obtain ⟨n', hrun', hlaps⟩ := walkHelper_laps h.laps hrun
  obtain ⟨a, p, hstack, hpo, hperm, -⟩ := hv.pushes
  have ha : a = [] := by
    rw [hinv.stack_eq_nil] at hstack
    exact (List.append_eq_nil_iff.1 hstack.symm).1
  have hp : p = [] := by
    rw [ha] at hperm
    exact hperm.eq_nil
  refine ⟨visited', s', n', done', hrun, hrun', ⟨hinv, ?_, hlaps, fun v hvv => ?_⟩, hv.toGrows⟩
  · rw [hpo, hp, h.poStack]
    rfl
  · cases hold : visited v with
    | true => exact h.bound v hold
    | false => exact reach_lt hid (hv.newer v hvv hold).2

/-- The walks over the nodes that are left. -/
theorem walkRest {fuel : Nat} (hfuel : graph.count ≤ fuel) {rest : List Nat} (hrest : ∀ i ∈ rest, i < graph.count)
    (h : Rests graph dir visited s n done) : ∃ visited' s' n' done',
      rest.foldlM (fun st i => if !st.1 i
        then walkHelper graph (sccCollection graph dir) dir fuel i (st.1, (sccCollection graph dir).tick st.2)
        else some st) (visited, s) = some (visited', s') ∧
      rest.foldlM (fun st i => if !st.1 i
        then walkHelper graph (nodeCollection .postorder true) dir fuel i (st.1, (nodeCollection .postorder true).tick st.2)
        else some st) (visited, n) = some (visited', n') ∧
      Rests graph dir visited' s' n' done' ∧ (∀ v, visited v = true → visited' v = true) ∧
      ∀ i ∈ rest, visited' i = true := by
  induction rest generalizing visited s n done with
  | nil => exact ⟨visited, s, n, done, rfl, rfl, h, fun _ hv => hv, by simp⟩
  | cons i rest ih =>
    have hrest' : ∀ j ∈ rest, j < graph.count := fun j hj => hrest j (List.mem_cons_of_mem _ hj)
    simp only [List.foldlM_cons, Option.bind_eq_bind]
    cases hi : visited i with
    | true =>
      obtain ⟨visited', s', n', done', hrun, hrun', hr, hmono, hall⟩ := ih hrest' h
      refine ⟨visited', s', n', done', by simpa using hrun, by simpa using hrun', hr, hmono, fun j hj => ?_⟩
      rcases List.mem_cons.1 hj with rfl | hj
      · exact hmono j hi
      · exact hall j hj
    | false =>
      obtain ⟨visited₁, s₁, n₁, done₁, h₁, h₁', hr₁, hgrows⟩ := h.tick.walk hi (hrest i List.mem_cons_self) hfuel
      obtain ⟨visited', s', n', done', hrun, hrun', hr, hmono, hall⟩ := ih hrest' hr₁
      simp only [Bool.not_false, if_true]
      rw [h₁', show (sccCollection graph dir).tick s = s from rfl, h₁]
      refine ⟨visited', s', n', done', hrun, hrun', hr, fun v hv => hmono v (hgrows.mono v hv), fun j hj => ?_⟩
      rcases List.mem_cons.1 hj with rfl | hj
      · exact hmono j hgrows.root
      · exact hall j hj

/-- What is left to do is to reverse the list of components. -/
theorem right (h : Rests graph dir visited s n done) :
    SccRight (graph.Edge dir) (fun v => visited v = true) s.sccOrder.dropLast.reverse (n.order.map List.reverse) := by
  have horder : s.sccOrder.dropLast = done := by rw [h.inv.emitted.1, List.dropLast_concat]
  have hflat : ∀ v, v ∈ done.reverse.flatten ↔ v ∈ done.flatten := fun v => by simp
  rw [horder]
  refine ⟨?_, fun v => ?_, fun c hc => ?_, fun before c after hsplit u hu v hedge => ?_, fun c hc => ?_⟩
  · exact (done.reverse_perm.flatten).nodup_iff.2 h.inv.components.nodup
  · rw [hflat, h.inv.split, h.inv.stack_eq_nil]
    simp
  · exact h.inv.components.component c (List.mem_reverse.1 hc)
  · have hdone : done = after.reverse ++ c :: before.reverse := by
      rw [← List.reverse_reverse done, hsplit]
      simp
    rcases h.inv.components.backward _ c _ hdone u hu v hedge with hv | hv
    · exact Or.inl hv
    · exact Or.inr (by simpa using hv)
  · obtain ⟨done₁, hdone₁, -, hlaps⟩ := h.laps.emitted
    have hsame : done = done₁ := by rw [← horder, hdone₁, List.dropLast_concat]
    obtain ⟨lap, hlap, hsub⟩ := hlaps c (hsame ▸ List.mem_reverse.1 hc)
    exact ⟨lap.reverse, List.mem_map_of_mem hlap, hsub⟩

end Rests

end Order

theorem SccRight.congr {E : Nat → Nat → Prop} {nodes nodes' : Nat → Prop} {order laps : List (List Nat)}
    (h : SccRight E nodes order laps) (hnodes : ∀ v, nodes v ↔ nodes' v) : SccRight E nodes' order laps :=
  ⟨h.once, fun v => (h.visits v).trans (hnodes v), h.component, h.forward, h.postorder⟩

/-- `genFull(0)` comes to every node. -/
theorem sccOrder_full (graph : Graph) (dir : Int) (hcount : 0 < graph.count) {fuel : Nat} (hfuel : graph.count ≤ fuel) :
    ∃ order laps, sccOrder graph dir true fuel = some order ∧ reversePostorder graph dir true fuel = some laps ∧
      SccRight (graph.Edge dir) (fun v => v < graph.count) order laps := by
  obtain ⟨visited, s, n, done, hrun, hrun', hrests, hgrows⟩ := (rests_reset graph dir).walk rfl hcount hfuel
  have hreset : (nodeCollection .postorder true).reset ⟨[], 0⟩ = ⟨[[]], 0⟩ := rfl
  have hreset' : (sccCollection graph dir).reset .empty = SccCollection.reset .empty := rfl
  have hrange : ∀ i ∈ List.range' 1 (graph.count - 1), i < graph.count := fun i hi => by
    rw [List.mem_range'_1] at hi
    omega
  obtain ⟨visited', s', n', done', hrest, hrest', hr, hmono, hall⟩ := hrests.walkRest hfuel hrange
  refine ⟨_, _, ?_, ?_, hr.right.congr fun v => ?_⟩
  · rw [sccOrder, if_pos rfl, walkAll, hreset', hrun]
    simp only [Option.bind_eq_bind, Option.bind_some]
    rw [hrest]
    rfl
  · rw [reversePostorder, if_pos rfl, walkAll, hreset, hrun']
    simp only [Option.bind_eq_bind, Option.bind_some]
    rw [hrest']
    rfl
  · refine ⟨hr.bound v, fun hv => ?_⟩
    by_cases hzero : v = 0
    · rw [hzero]
      exact hmono 0 hgrows.root
    · exact hall v (by rw [List.mem_range'_1]; omega)

/-- `gen(0)` and `genFull(0)`, in every direction, for every graph with a node 0. -/
theorem scc_order_right (graph : Graph) (dir : Int) (full : Bool) (hcount : 0 < graph.count)
    (fuel : Nat) (hfuel : graph.count ≤ fuel) :
    ∃ order laps, sccOrder graph dir full fuel = some order ∧ reversePostorder graph dir full fuel = some laps ∧
      SccRight (graph.Edge dir)
        (fun v => if full then v < graph.count else ReflTransGen (graph.Edge dir) 0 v) order laps := by
  cases full with
  | false =>
    obtain ⟨visited, s, n, done, hrun, hrun', hrests, hgrows⟩ := (rests_reset graph dir).walk rfl hcount hfuel
    have hreset : (nodeCollection .postorder true).reset ⟨[], 0⟩ = ⟨[[]], 0⟩ := rfl
    have hreset' : (sccCollection graph dir).reset .empty = SccCollection.reset .empty := rfl
    refine ⟨_, _, ?_, ?_, hrests.right.congr fun v => ?_⟩
    · rw [sccOrder, if_neg (by simp), walk, hreset', hrun]
      rfl
    · rw [reversePostorder, if_neg (by simp), walk, hreset, hrun']
      rfl
    · rw [if_neg (by simp)]
      exact ⟨fun hv => (hgrows.newer v hv rfl).2, fun hv => mem_of_reach (S := fun v => visited v = true)
        (fun u hu w hedge => hrests.inv.black u hu (by simp) w hedge) hgrows.root hv⟩
  | true =>
    obtain ⟨order, laps, horder, hlaps, hright⟩ := sccOrder_full graph dir hcount hfuel
    exact ⟨order, laps, horder, hlaps, hright.congr fun v => by rw [if_pos rfl]⟩

/-- A loop, a node that leads to itself, two edges to one node, and a node that leads into it. -/
def sampleGraph : Graph where
  count := 4
  links _ id := if id = 0 then [1, 1] else if id = 1 then [2, 1] else if id = 2 then [1] else if id = 3 then [1] else []
  links_lt _ id hid n hn := by
    interval_cases id <;> simp at hn <;> omega

theorem scc_order_sample : ∃ order laps, sccOrder sampleGraph 1 true 4 = some order ∧
    reversePostorder sampleGraph 1 true 4 = some laps ∧
    SccRight (sampleGraph.Edge 1) (fun v => if true then v < 4 else ReflTransGen (sampleGraph.Edge 1) 0 v) order laps :=
  scc_order_right sampleGraph 1 true (by decide) 4 (by decide)

end Egalito.Analysis
