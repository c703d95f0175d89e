import Egalito.Analysis.SccOrder
import Egalito.Lib.Dominators
/-!
# The orders of a `NodeCollection`

An induction rule for the depth-first search of any collector, the nodes that a
walk visits, and its postorder: every node but the first has a predecessor that
is finished later.
-/

open Relation Egalito.Lib

namespace Egalito.Analysis

/-! ## A rule for walks -/

section Rule

variable {σ : Type} {graph : Graph} {collector : Collector σ} {dir : Int}

/-- `P` is for the walk from a node, `Q` for the rest of the loop over the links of a node. -/
theorem walkHelper_rule {P : Nat → (Nat → Bool) × σ → (Nat → Bool) × σ → Prop}
    {Q : Nat → List Nat → (Nat → Bool) × σ → (Nat → Bool) × σ → Prop}
    (hnode : ∀ id visited s st s',
      Q id (graph.links dir id) (Function.update visited id true, collector.preVisit id s) st →
      collector.postVisit id st.2 = some s' → P id (visited, s) (st.1, s'))
    (hnil : ∀ id st, Q id [] st st)
    (hlate : ∀ id n ns st st', st.1 n = true → Q id ns (st.1, collector.lateVisit id n st.2) st' → Q id (n :: ns) st st')
    (hvisit : ∀ id n ns st st₁ st', st.1 n = false → P n st st₁ → Q id ns st₁ st' → Q id (n :: ns) st st')
    {fuel id : Nat} {st st' : (Nat → Bool) × σ} (h : walkHelper graph collector dir fuel id st = some st') :
    P id st st' := by
  induction fuel generalizing id st st' with
  | zero => cases h
  | succ fuel ih =>
    have hloop : ∀ (links : List Nat) (st st' : (Nat → Bool) × σ),
        links.foldlM (fun st n => if !st.1 n then walkHelper graph collector dir fuel n st
          else some (st.1, collector.lateVisit id n st.2)) st = some st' → Q id links st st' := by
      intro links
      induction links with
      | nil =>
        intro st st' hrun
        cases hrun
        exact hnil id st
      | cons n links ihlinks =>
        intro st st' hrun
        rw [List.foldlM_cons, Option.bind_eq_bind, Option.bind_eq_some_iff] at hrun
        obtain ⟨st₁, h₁, hrun⟩ := hrun
        cases hn : st.1 n with
        | true =>
          simp only [hn, Bool.not_true, Bool.false_eq_true, if_false, Option.some.injEq] at h₁
          exact hlate id n links st st' hn (h₁ ▸ ihlinks _ _ hrun)
        | false =>
          simp only [hn, Bool.not_false, if_true] at h₁
          exact hvisit id n links st st₁ st' hn (ih h₁) (ihlinks _ _ hrun)
    obtain ⟨visited, s⟩ := st
    simp only [walkHelper, Option.bind_eq_bind, Option.bind_eq_some_iff, Option.pure_def, Option.some.injEq] at h
    obtain ⟨st₁, hrun, s₁, hpost, rfl⟩ := h
    exact hnode id visited s st₁ s₁ (hloop _ _ _ hrun) hpost

/-- The nodes that a walk adds are reached from its node, and their links are followed. -/
structure Spreads (graph : Graph) (dir : Int) (visited visited' : Nat → Bool) : Prop where
  mono : ∀ v, visited v = true → visited' v = true
  closed : ∀ v, visited v = false → visited' v = true → ∀ w, graph.Edge dir v w → visited' w = true

theorem Spreads.trans {visited visited₁ visited' : Nat → Bool} (h : Spreads graph dir visited visited₁)
    (h' : Spreads graph dir visited₁ visited') : Spreads graph dir visited visited' := by
  refine ⟨fun v hv => h'.mono v (h.mono v hv), fun v hv hv' w hedge => ?_⟩
  cases hv₁ : visited₁ v with
  | true => exact h'.mono w (h.closed v hv hv₁ w hedge)
  | false => exact h'.closed v hv₁ hv' w hedge

/-- What a walk over the links `ns` of a node does to `visited`. -/
structure Covers (graph : Graph) (dir : Int) (id : Nat) (ns : List Nat) (visited visited' : Nat → Bool) : Prop
    extends Spreads graph dir visited visited' where
  links : ∀ n ∈ ns, visited' n = true
  new : ∀ v, visited' v = true → visited v = true ∨ ReflTransGen (graph.Edge dir) id v

/-- The rule with what is known of `visited`. -/
theorem walkHelper_spreads_rule {P : Nat → (Nat → Bool) × σ → (Nat → Bool) × σ → Prop}
    {Q : Nat → List Nat → (Nat → Bool) × σ → (Nat → Bool) × σ → Prop}
    (hnode : ∀ id visited s st s', Covers graph dir id (graph.links dir id) (Function.update visited id true) st.1 →
      Q id (graph.links dir id) (Function.update visited id true, collector.preVisit id s) st →
      collector.postVisit id st.2 = some s' → P id (visited, s) (st.1, s'))
    (hnil : ∀ id st, Q id [] st st)
    (hlate : ∀ id n ns st st', st.1 n = true → Q id ns (st.1, collector.lateVisit id n st.2) st' → Q id (n :: ns) st st')
    (hvisit : ∀ id n ns st st₁ st', st.1 n = false → Spreads graph dir st.1 st₁.1 → st₁.1 n = true →
      Spreads graph dir st₁.1 st'.1 → P n st st₁ → Q id ns st₁ st' → Q id (n :: ns) st st')
    {fuel id : Nat} {st st' : (Nat → Bool) × σ} (h : walkHelper graph collector dir fuel id st = some st') :
    Covers graph dir id [id] st.1 st'.1 ∧ P id st st' := by
  refine walkHelper_rule (P := fun id st st' => Covers graph dir id [id] st.1 st'.1 ∧ P id st st')
    (Q := fun id ns st st' => (∀ n ∈ ns, graph.Edge dir id n) → Covers graph dir id ns st.1 st'.1 ∧ Q id ns st st')
    ?_ ?_ ?_ ?_ h
  · intro id visited s st s' hq hpost
    obtain ⟨hcovers, hq⟩ := hq fun n hn => hn
    have hid : st.1 id = true := hcovers.mono id (Function.update_self ..)
    refine ⟨⟨⟨fun v hv => hcovers.mono v ?_, fun v hv hv' w hedge => ?_⟩, by simpa using hid, fun v hv => ?_⟩,
      hnode id visited s st s' hcovers hq hpost⟩
    · by_cases hvi : v = id
      · exact hvi ▸ Function.update_self ..
      · exact (Function.update_of_ne hvi _ _).trans hv
    · by_cases hvi : v = id
      · exact hcovers.links w (hvi ▸ hedge)
      · exact hcovers.closed v ((Function.update_of_ne hvi _ _).trans hv) hv' w hedge
    · by_cases hvi : v = id
      · exact .inr (hvi ▸ .refl)
      · exact (hcovers.new v hv).imp_left (Function.update_of_ne hvi _ _).symm.trans
  · intro id st _
    exact ⟨⟨⟨fun _ hv => hv, fun v hv hv' => by rw [hv] at hv'; cases hv'⟩, by simp, fun _ hv => .inl hv⟩, hnil id st⟩
  · intro id n ns st st' hn hq hedges
    obtain ⟨hcovers, hq⟩ := hq fun m hm => hedges m (List.mem_cons_of_mem _ hm)
    exact ⟨⟨hcovers.toSpreads, List.forall_mem_cons.2 ⟨hcovers.mono n hn, hcovers.links⟩, hcovers.new⟩,
      hlate id n ns st st' hn hq⟩
  · intro id n ns st st₁ st' hn ⟨hcovers, hp⟩ hq hedges
    obtain ⟨hcovers', hq⟩ := hq fun m hm => hedges m (List.mem_cons_of_mem _ hm)
    have hn₁ := hcovers.links n List.mem_cons_self
    refine ⟨⟨hcovers.trans hcovers'.toSpreads, List.forall_mem_cons.2 ⟨hcovers'.mono n hn₁, hcovers'.links⟩,
      fun v hv => ?_⟩, hvisit id n ns st st₁ st' hn hcovers.toSpreads hn₁ hcovers'.toSpreads hp hq⟩
    rcases hcovers'.new v hv with hv₁ | hv₁
    · exact (hcovers.new v hv₁).imp_right fun hr => .head (hedges n List.mem_cons_self) hr
    · exact .inr hv₁

theorem walkHelper_covers {fuel id : Nat} {st st' : (Nat → Bool) × σ}
    (h : walkHelper graph collector dir fuel id st = some st') : Covers graph dir id [id] st.1 st'.1 :=
  (walkHelper_spreads_rule (P := fun _ _ _ => True) (Q := fun _ _ _ _ => True) (fun _ _ _ _ _ _ _ _ => trivial)
    (fun _ _ => trivial) (fun _ _ _ _ _ _ _ => trivial) (fun _ _ _ _ _ _ _ _ _ _ _ _ => trivial) h).1

/-- From nothing, a walk visits what is reached. -/
theorem walkHelper_visits {fuel id : Nat} {s s' : σ} {visited : Nat → Bool}
    (h : walkHelper graph collector dir fuel id (fun _ => false, s) = some (visited, s')) (v : Nat) :
    visited v = true ↔ ReflTransGen (graph.Edge dir) id v := by
  have hcovers := walkHelper_covers h
  refine ⟨fun hv => (hcovers.new v hv).resolve_left (by simp), fun hv => ?_⟩
  exact mem_of_reach (S := fun v => visited v = true) (fun u hu w hedge => hcovers.closed u rfl hu w hedge)
    (hcovers.links id List.mem_cons_self) hv

/-- A collector that never stops lets the walk end. -/
theorem walkHelper_total (hpost : ∀ id s, ∃ s', collector.postVisit id s = some s') {fuel id : Nat}
    (hid : id < graph.count) (hfuel : graph.count ≤ fuel) (s : σ) :
    ∃ visited s', walkHelper graph collector dir fuel id (fun _ => false, s) = some (visited, s') := by
  obtain ⟨visited, _, _, hrun, -⟩ := walkHelper_spec (inv_reset graph dir) rfl hid (by simp)
    (unvisited_le.trans hfuel)
  have hsim : ∃ s', walkHelper graph collector dir fuel id (fun _ => false, s) = some (visited, s') ∧ True :=
    walkHelper_simulation (fun _ _ => True) (fun _ _ _ _ => trivial) (fun _ _ _ _ _ => trivial)
      (fun id _ t _ _ _ => (hpost id t).imp fun _ h => ⟨h, trivial⟩) trivial hrun
  exact ⟨visited, hsim.imp fun _ h => h.1⟩

end Rule

/-! ## The list of a walk -/

/-- The collector that only has the current list. -/
def listCollector (visit : VisitType) : Collector (List Nat) where
  reset _ := []
  tick l := l
  preVisit id l := visit.preVisit id l
  postVisit id l := some (visit.postVisit id l)
  lateVisit _ _ l := l
  finish l := l

/-- `gen(id)` of a `NodeCollection`, and the first list of `get()`. -/
def genOrder (graph : Graph) (dir : Int) (visit : VisitType) (reverse : Bool) (fuel id : Nat) : Option (List Nat) := do
  (← walk graph (nodeCollection visit reverse) dir fuel id ⟨[], 0⟩).order.head?

theorem genOrder_eq (graph : Graph) (dir : Int) (visit : VisitType) (reverse : Bool) {fuel id : Nat}
    (hid : id < graph.count) (hfuel : graph.count ≤ fuel) : ∃ visited l,
      walkHelper graph (listCollector visit) dir fuel id (fun _ => false, []) = some (visited, l) ∧
      genOrder graph dir visit reverse fuel id = some (if reverse then l.reverse else l) := by
  obtain ⟨visited, l, hrun⟩ : ∃ visited l, walkHelper graph (listCollector visit) dir fuel id (fun _ => false, []) =
      some (visited, l) := walkHelper_total (fun _ _ => ⟨_, rfl⟩) hid hfuel []
  have hsim : ∃ n, walkHelper graph (nodeCollection visit reverse) dir fuel id (fun _ => false, ⟨[[]], 0⟩) =
      some (visited, n) ∧ n = ⟨[l], 0⟩ := by
    refine walkHelper_simulation (fun (l : List Nat) (n : NodeCollection) => n = ⟨[l], 0⟩) (fun id l n h => ?_) (fun id m l n h => h)
      (fun id l n l' h hpost => ?_) rfl hrun
    · rw [h]
      rfl
    · cases hpost
      rw [h]
      exact ⟨_, rfl, rfl⟩
  obtain ⟨n, hn, hl⟩ := hsim
  have hreset : (nodeCollection visit reverse).reset ⟨[], 0⟩ = ⟨[[]], 0⟩ := rfl
  refine ⟨visited, l, hrun, ?_⟩
  rw [genOrder, walk, hreset, hn]
  subst hl
  cases reverse <;> rfl

/-! ## The nodes of a list -/

/-- What a walk appends to a preorder or a postorder: its new nodes, once each. -/
structure Adds (visited visited' : Nat → Bool) (l : List Nat) : Prop where
  mem_iff : ∀ v, v ∈ l ↔ visited' v = true ∧ visited v = false
  nodup : l.Nodup

theorem adds_nil (visited : Nat → Bool) : Adds visited visited [] := by
  refine ⟨fun v => ?_, List.nodup_nil⟩
  cases visited v <;> simp

theorem Adds.append {visited visited₁ visited' : Nat → Bool} {l l' : List Nat}
    (hmono : ∀ v, visited v = true → visited₁ v = true) (hmono' : ∀ v, visited₁ v = true → visited' v = true)
    (h : Adds visited visited₁ l) (h' : Adds visited₁ visited' l') : Adds visited visited' (l ++ l') := by
  refine ⟨fun v => ?_, ?_⟩
  · rw [List.mem_append, h.mem_iff, h'.mem_iff]
    constructor
    · rintro (⟨h₁, h₀⟩ | ⟨hv, h₁⟩)
      · exact ⟨hmono' v h₁, h₀⟩
      · refine ⟨hv, ?_⟩
        cases h₀ : visited v with
        | false => rfl
        | true => rw [hmono v h₀] at h₁; cases h₁
    · rintro ⟨hv, h₀⟩
      cases h₁ : visited₁ v with
      | true => exact .inl ⟨rfl, h₀⟩
      | false => exact .inr ⟨hv, rfl⟩
  · refine List.nodup_append.2 ⟨h.nodup, h'.nodup, fun a ha b hb hab => ?_⟩
    have h₁ := ((h.mem_iff a).1 ha).1
    rw [hab, ((h'.mem_iff b).1 hb).2] at h₁
    cases h₁

/-- The node itself is new. -/
theorem Adds.node {visited visited' : Nat → Bool} {id : Nat} {l : List Nat} (hid : visited id = false)
    (hid' : visited' id = true) (h : Adds (Function.update visited id true) visited' l) :
    Adds visited visited' (id :: l) := by
  refine ⟨fun v => ?_, List.nodup_cons.2 ⟨fun hl => ?_, h.nodup⟩⟩
  · rw [List.mem_cons, h.mem_iff]
    by_cases hv : v = id
    · simp [hv, hid, hid']
    · simp [hv]
  · have hnew := ((h.mem_iff id).1 hl).2
    rw [Function.update_self] at hnew
    cases hnew

theorem Adds.perm {visited visited' : Nat → Bool} {l l' : List Nat} (h : Adds visited visited' l) (hp : l.Perm l') :
    Adds visited visited' l' :=
  ⟨fun v => hp.mem_iff.symm.trans (h.mem_iff v), hp.nodup_iff.1 h.nodup⟩

/-! ## Postorders -/

/-- A node of a postorder that does not come from the links `heads` has a predecessor behind it. -/
structure Finished (graph : Graph) (dir : Int) (visited visited' : Nat → Bool) (heads : Nat → Prop)
    (l : List Nat) : Prop extends Adds visited visited' l where
  later : ∀ front v back, l = front ++ v :: back → heads v ∨ ∃ u ∈ back, graph.Edge dir u v

section Postorder

variable {graph : Graph} {dir : Int}

theorem Finished.append {visited visited₁ visited' : Nat → Bool} {heads heads' : Nat → Prop} {l l' : List Nat}
    (hmono : ∀ v, visited v = true → visited₁ v = true) (hmono' : ∀ v, visited₁ v = true → visited' v = true)
    (h : Finished graph dir visited visited₁ heads l) (h' : Finished graph dir visited₁ visited' heads' l') :
    Finished graph dir visited visited' (fun v => heads v ∨ heads' v) (l ++ l') := by
  refine ⟨h.toAdds.append hmono hmono' h'.toAdds, fun front v back hsplit => ?_⟩
  rcases List.append_eq_append_iff.1 hsplit with ⟨mid, rfl, hl'⟩ | ⟨mid, hl, hback⟩
  · exact (h'.later mid v back hl').imp_left .inr
  · cases mid with
    | nil =>
      rw [List.nil_append] at hback
      exact (h'.later [] v back hback.symm).imp_left .inr
    | cons w mid =>
      rw [List.cons_append, List.cons.injEq] at hback
      obtain ⟨rfl, rfl⟩ := hback
      rcases h.later front v mid hl with hv | ⟨u, hu, hedge⟩
      · exact .inl (.inl hv)
      · exact .inr ⟨u, List.mem_append_left _ hu, hedge⟩

/-- The node itself comes last. -/
theorem Finished.node {visited visited' : Nat → Bool} {id : Nat} {l : List Nat} (hid : visited id = false)
    (hid' : visited' id = true)
    (h : Finished graph dir (Function.update visited id true) visited' (· ∈ graph.links dir id) l) :
    Finished graph dir visited visited' (· = id) (l ++ [id]) := by
  refine ⟨(h.toAdds.node hid hid').perm (List.perm_append_singleton id l).symm, fun front v back hsplit => ?_⟩
  rcases List.append_eq_append_iff.1 hsplit with ⟨mid, -, hmid⟩ | ⟨mid, hl, hback⟩
  · have hv : v ∈ [id] := by rw [hmid]; simp
    exact .inl (List.mem_singleton.1 hv)
  · cases mid with
    | nil =>
      rw [List.nil_append, List.cons.injEq] at hback
      exact .inl hback.1
    | cons w mid =>
      rw [List.cons_append, List.cons.injEq] at hback
      obtain ⟨rfl, rfl⟩ := hback
      rcases h.later front v mid hl with hv | ⟨u, hu, hedge⟩
      · exact .inr ⟨id, by simp, hv⟩
      · exact .inr ⟨u, List.mem_append_left _ hu, hedge⟩

theorem walkHelper_postorder {fuel id : Nat} {st st' : (Nat → Bool) × List Nat}
    (h : walkHelper graph (listCollector .postorder) dir fuel id st = some st') (hid : st.1 id = false) :
    ∃ l, st'.2 = st.2 ++ (l ++ [id]) ∧ Finished graph dir st.1 st'.1 (· = id) (l ++ [id]) := by
  refine (walkHelper_spreads_rule (P := fun id st st' => st.1 id = false →
      ∃ l, st'.2 = st.2 ++ (l ++ [id]) ∧ Finished graph dir st.1 st'.1 (· = id) (l ++ [id]))
    (Q := fun _ ns st st' => ∃ l, st'.2 = st.2 ++ l ∧ Finished graph dir st.1 st'.1 (· ∈ ns) l)
    ?_ ?_ ?_ ?_ h).2 hid
  · rintro id visited s ⟨visited', s₁⟩ s' hcovers ⟨l, rfl, hfin⟩ ⟨⟩ hid
    dsimp only at hcovers hfin ⊢
    refine ⟨l, ?_, hfin.node hid (hcovers.mono id (Function.update_self ..))⟩
    simp [listCollector, VisitType.preVisit, VisitType.postVisit]
  · intro _ st
    exact ⟨[], (List.append_nil _).symm, adds_nil st.1, by simp⟩
  · rintro id n ns st st' hn ⟨l, hl, hfin⟩
    exact ⟨l, hl, hfin.toAdds, fun front v back hsplit =>
      (hfin.later front v back hsplit).imp_left (List.mem_cons_of_mem n)⟩
  · rintro id n ns st st₁ st' hn hspreads _ hspreads' hp ⟨l, hl, hfin⟩
    obtain ⟨l₁, hl₁, hfin₁⟩ := hp hn
    refine ⟨l₁ ++ [n] ++ l, by rw [hl, hl₁, List.append_assoc], ?_⟩
    have happ := hfin₁.append hspreads.mono hspreads'.mono hfin
    exact ⟨happ.toAdds, fun front v back hsplit =>
      (happ.later front v back hsplit).imp_left fun hv => hv.elim (fun he => he ▸ List.mem_cons_self)
        (List.mem_cons_of_mem n)⟩

/-- A numbering of the reached nodes from a root, in which every other node has an earlier predecessor. -/
structure Numbering (E : Nat → Nat → Prop) (root : Nat) (order : List Nat) : Prop where
  head : ∃ rest, order = root :: rest
  nodup : order.Nodup
  mem_iff : ∀ v, v ∈ order ↔ ReflTransGen E root v
  earlier : ∀ front v back, order = front ++ v :: back → v ≠ root → ∃ u ∈ front, E u v

/-- `rpo.gen(0)` and `rpo.get()[0]`. -/
theorem numbering_reversePostorder (graph : Graph) (hcount : 0 < graph.count) {fuel : Nat} (hfuel : graph.count ≤ fuel) :
    ∃ order, genOrder graph 1 .postorder true fuel 0 = some order ∧ Numbering (graph.Edge 1) 0 order := by
  obtain ⟨visited, l, hrun, hgen⟩ := genOrder_eq graph 1 .postorder true hcount hfuel
  obtain ⟨front, hl, hfin⟩ := walkHelper_postorder hrun rfl
  rw [List.nil_append] at hl
  dsimp only at hl hfin
  subst hl
  refine ⟨_, hgen, ⟨⟨front.reverse, by simp⟩, by rw [if_pos rfl]; exact List.nodup_reverse.2 hfin.nodup,
    fun v => ?_, fun pre v post hsplit hv => ?_⟩⟩
  · rw [if_pos rfl, List.mem_reverse, hfin.mem_iff, walkHelper_visits hrun]
    simp
  · have hrev : front ++ [0] = post.reverse ++ v :: pre.reverse := by
      rw [if_pos rfl] at hsplit
      rw [← List.reverse_reverse (front ++ [0]), hsplit]
      simp
    obtain ⟨u, hu, hedge⟩ := (hfin.later _ v _ hrev).resolve_left hv
    exact ⟨u, List.mem_reverse.1 hu, hedge⟩

end Postorder

/-! ## Preorders -/

section Preorder

variable {graph : Graph} {dir : Int}

theorem walkHelper_preorder {fuel id : Nat} {st st' : (Nat → Bool) × List Nat}
    (h : walkHelper graph (listCollector .preorder) dir fuel id st = some st') (hid : st.1 id = false) :
    ∃ l, st'.2 = st.2 ++ id :: l ∧ Adds st.1 st'.1 (id :: l) := by
  refine (walkHelper_spreads_rule (P := fun id st st' => st.1 id = false →
      ∃ l, st'.2 = st.2 ++ id :: l ∧ Adds st.1 st'.1 (id :: l))
    (Q := fun _ _ st st' => ∃ l, st'.2 = st.2 ++ l ∧ Adds st.1 st'.1 l) ?_ ?_ ?_ ?_ h).2 hid
  · rintro id visited s ⟨visited', s₁⟩ s' hcovers ⟨l, rfl, hadds⟩ ⟨⟩ hid
    dsimp only at hcovers hadds ⊢
    refine ⟨l, ?_, hadds.node hid (hcovers.mono id (Function.update_self ..))⟩
    simp [listCollector, VisitType.preVisit, VisitType.postVisit]
  · intro _ st
    exact ⟨[], (List.append_nil _).symm, adds_nil st.1⟩
  · exact fun _ _ _ _ _ _ hq => hq
  · rintro id n ns st st₁ st' hn hspreads _ hspreads' hp ⟨l, hl, hadds⟩
    obtain ⟨l₁, hl₁, hadds₁⟩ := hp hn
    exact ⟨n :: l₁ ++ l, by rw [hl, hl₁, List.append_assoc], hadds₁.append hspreads.mono hspreads'.mono hadds⟩

/-- `po.gen(0)` and `po.get()[0]`. -/
theorem genOrder_preorder (graph : Graph) {id fuel : Nat} (hid : id < graph.count) (hfuel : graph.count ≤ fuel) :
    ∃ order, genOrder graph dir .preorder false fuel id = some order ∧ order.Nodup ∧
      ∀ v, v ∈ order ↔ ReflTransGen (graph.Edge dir) id v := by
  obtain ⟨visited, l, hrun, hgen⟩ := genOrder_eq graph dir .preorder false hid hfuel
  obtain ⟨back, hl, hadds⟩ := walkHelper_preorder hrun rfl
  rw [List.nil_append] at hl
  dsimp only at hl hadds
  subst hl
  refine ⟨_, hgen, hadds.nodup, fun v => ?_⟩
  rw [if_neg Bool.false_ne_true, hadds.mem_iff, walkHelper_visits hrun]
  simp

end Preorder

end Egalito.Analysis
