import Egalito.Analysis.Postorder
import Egalito.Lib.Run
/-!
# The groups of a whole preorder

`genFull(0)` of a `Preorder` starts again at each node that has not been visited.
Its lists part the nodes: the first one has the nodes reached from node 0, and
the others begin with another node each.
-/

open Relation Egalito.Lib

namespace Egalito.Analysis

/-- `genFull(0)` and `get()` of a `Preorder`. -/
def preorderFull (graph : Graph) (fuel : Nat) : Option (List (List Nat)) := do
  return (← walkAll graph (nodeCollection .preorder false) 1 fuel 0 ⟨[], 0⟩).order

/-! ## A walk that ends for one collector -/

/-- Whether a whole walk ends does not depend on the collector. -/
theorem walkAll_total {σ τ : Type} {graph : Graph} {dir : Int} {collector : Collector σ} {collector' : Collector τ}
    (hpost : ∀ id t, ∃ t', collector'.postVisit id t = some t') {fuel id : Nat} {s s' : σ}
    (h : walkAll graph collector dir fuel id s = some s') (t : τ) :
    ∃ t', walkAll graph collector' dir fuel id t = some t' := by
  have hwalk {i : Nat} {st st' : (Nat → Bool) × σ} (hrun : walkHelper graph collector dir fuel i st = some st')
      (t : τ) : ∃ t', walkHelper graph collector' dir fuel i (st.1, t) = some (st'.1, t') := by
    obtain ⟨t', ht', -⟩ := walkHelper_simulation (R := fun (_ : σ) (_ : τ) => True) (fun _ _ _ _ => trivial)
      (fun _ _ _ _ _ => trivial) (fun id _ t _ _ _ => (hpost id t).imp fun _ h => ⟨h, trivial⟩) trivial hrun
    exact ⟨t', ht'⟩
  have hrest : ∀ (nodes : List Nat) (st st' : (Nat → Bool) × σ) (t : τ),
      nodes.foldlM (fun st i => if !st.1 i
        then walkHelper graph collector dir fuel i (st.1, collector.tick st.2) else some st) st = some st' →
      ∃ t', nodes.foldlM (fun st i => if !st.1 i
        then walkHelper graph collector' dir fuel i (st.1, collector'.tick st.2) else some st) (st.1, t) =
          some (st'.1, t') := by
    intro nodes
    induction nodes with
    | nil =>
      intro st st' t hrun
      cases hrun
      exact ⟨t, rfl⟩
    | cons i nodes ih =>
      intro st st' t hrun
      rw [List.foldlM_cons, Option.bind_eq_bind, Option.bind_eq_some_iff] at hrun
      obtain ⟨st₁, h₁, hrun⟩ := hrun
      have hone : ∃ t₁, (if !st.1 i then walkHelper graph collector' dir fuel i (st.1, collector'.tick t)
          else some (st.1, t)) = some (st₁.1, t₁) := by
        split at h₁
        case isTrue hi =>
          rw [if_pos hi]
          exact hwalk h₁ _
        case isFalse hi =>
          cases h₁
          rw [if_neg hi]
          exact ⟨t, rfl⟩
      obtain ⟨t₁, ht₁⟩ := hone
      obtain ⟨t', ht'⟩ := ih st₁ st' t₁ hrun
      refine ⟨t', ?_⟩
      rw [List.foldlM_cons]
      simp only [ht₁, Option.bind_eq_bind, Option.bind_some]
      exact ht'
  simp only [walkAll, Option.bind_eq_bind, Option.bind_eq_some_iff] at h
  obtain ⟨st, hst, ⟨visited, s₁⟩, hrun, -⟩ := h
  obtain ⟨t₁, ht₁⟩ := hwalk hst (collector'.reset t)
  obtain ⟨t', ht'⟩ := hrest _ _ _ t₁ hrun
  exact ⟨collector'.finish t', by rw [walkAll, ht₁]; simp only [Option.bind_eq_bind, Option.bind_some, ht']; rfl⟩

/-! ## One lap -/

theorem modify_last {α : Type} (f : α → α) (done : List α) (l : α) :
    (done ++ [l]).modify done.length f = done ++ [f l] := by
  induction done with
  | nil => rfl
  | cons x done ih => simpa using ih

/-- A lap is a walk that writes one list. -/
theorem walkHelper_lap {graph : Graph} {dir : Int} {fuel id : Nat} {visited : Nat → Bool} {done : List (List Nat)}
    {st' : (Nat → Bool) × NodeCollection}
    (h : walkHelper graph (nodeCollection .preorder false) dir fuel id (visited, ⟨done ++ [[]], done.length⟩) = some st')
    (hid : visited id = false) :
    ∃ l, st'.2 = ⟨done ++ [id :: l], done.length⟩ ∧ Adds visited st'.1 (id :: l) ∧
      Covers graph dir id [id] visited st'.1 := by
  obtain ⟨l', hrun, hl'⟩ : ∃ l', walkHelper graph (listCollector .preorder) dir fuel id (visited, []) =
      some (st'.1, l') ∧ st'.2 = ⟨done ++ [l'], done.length⟩ := walkHelper_simulation
    (fun (n : NodeCollection) (l : List Nat) => n = ⟨done ++ [l], done.length⟩)
    (fun id n l hn => by
      rw [hn]
      exact congrArg (NodeCollection.mk · done.length) (modify_last _ done l))
    (fun _ _ _ _ hn => hn)
    (fun id n l n' hn hpost => by
      cases hpost
      rw [hn]
      exact ⟨_, rfl, congrArg (NodeCollection.mk · done.length) (modify_last _ done l)⟩)
    rfl h
  obtain ⟨l, hl, hadds⟩ := walkHelper_preorder hrun hid
  dsimp only [List.nil_append] at hl hadds
  exact ⟨l, by rw [hl', hl], hadds, walkHelper_covers h⟩

/-! ## All laps -/

/-- The lists so far: they have what has been visited, and the first one is what node 0 reaches. -/
structure Parted (graph : Graph) (visited : Nat → Bool) (groups : List (List Nat)) : Prop where
  once : groups.flatten.Nodup
  mem_iff : ∀ v, v ∈ groups.flatten ↔ visited v = true
  nonempty : ∀ group ∈ groups, group ≠ []
  first : ∃ group rest, groups = group :: rest ∧ ∀ v, v ∈ group ↔ ReflTransGen (graph.Edge 1) 0 v

theorem Parted.concat {graph : Graph} {visited visited' : Nat → Bool} {groups : List (List Nat)} {id : Nat} {l : List Nat}
    (h : Parted graph visited groups) (hmono : ∀ v, visited v = true → visited' v = true)
    (hadds : Adds visited visited' (id :: l)) : Parted graph visited' (groups ++ [id :: l]) := by
  have hflat : (groups ++ [id :: l]).flatten = groups.flatten ++ (id :: l) := by simp
  refine ⟨?_, fun v => ?_, fun group hgroup => ?_, ?_⟩
  · rw [hflat]
    refine List.nodup_append.2 ⟨h.once, hadds.nodup, fun a ha b hb hab => ?_⟩
    have hold := (h.mem_iff a).1 ha
    rw [hab, ((hadds.mem_iff b).1 hb).2] at hold
    cases hold
  · rw [hflat, List.mem_append, h.mem_iff, hadds.mem_iff]
    cases hv : visited v with
    | true => simp [hmono v hv]
    | false => simp
  · rcases List.mem_append.1 hgroup with hgroup | hgroup
    · exact h.nonempty group hgroup
    · rw [List.mem_singleton.1 hgroup]
      exact List.cons_ne_nil id l
  · obtain ⟨group, rest, hgroups, hfirst⟩ := h.first
    exact ⟨group, rest ++ [id :: l], by rw [hgroups, List.cons_append], hfirst⟩

/-- What holds between the laps. -/
structure Lapped (graph : Graph) (visited : Nat → Bool) (n : NodeCollection) : Prop
    extends Parted graph visited n.order where
  lap : n.lap + 1 = n.order.length
  bound : ∀ v, visited v = true → v < graph.count

theorem Lapped.rest {graph : Graph} {visited visited' : Nat → Bool} {n n' : NodeCollection} {fuel : Nat}
    {nodes : List Nat} (h : Lapped graph visited n) (hnodes : ∀ i ∈ nodes, i < graph.count)
    (hrun : nodes.foldlM (fun st i => if !st.1 i
      then walkHelper graph (nodeCollection .preorder false) 1 fuel i (st.1, (nodeCollection .preorder false).tick st.2)
      else some st) (visited, n) = some (visited', n')) :
    Lapped graph visited' n' ∧ (∀ v, visited v = true → visited' v = true) ∧ ∀ i ∈ nodes, visited' i = true := by
  induction nodes generalizing visited n with
  | nil =>
    cases hrun
    exact ⟨h, fun _ hv => hv, by simp⟩
  | cons i nodes ih =>
    have hnodes' : ∀ j ∈ nodes, j < graph.count := fun j hj => hnodes j (List.mem_cons_of_mem _ hj)
    rw [List.foldlM_cons, Option.bind_eq_bind, Option.bind_eq_some_iff] at hrun
    obtain ⟨⟨visited₁, n₁⟩, h₁, hrun⟩ := hrun
    cases hi : visited i with
    | true =>
      simp only [hi, Bool.not_true, Bool.false_eq_true, if_false, Option.some.injEq, Prod.mk.injEq] at h₁
      obtain ⟨rfl, rfl⟩ := h₁
      obtain ⟨hlapped, hmono, hall⟩ := ih h hnodes' hrun
      exact ⟨hlapped, hmono, List.forall_mem_cons.2 ⟨hmono i hi, hall⟩⟩
    | false =>
      simp only [hi, Bool.not_false, if_true] at h₁
      have htick : (nodeCollection .preorder false).tick n = ⟨n.order ++ [[]], n.order.length⟩ := by
        rw [← h.lap]
        rfl
      rw [htick] at h₁
      obtain ⟨l, hl, hadds, hcovers⟩ := walkHelper_lap h₁ hi
      dsimp only at hl hadds hcovers
      subst hl
      have hlapped₁ : Lapped graph visited₁ ⟨n.order ++ [i :: l], n.order.length⟩ :=
        ⟨h.concat hcovers.mono hadds, by rw [List.length_append]; rfl, fun v hv =>
          (hcovers.new v hv).elim (h.bound v) (reach_lt (hnodes i List.mem_cons_self))⟩
      obtain ⟨hlapped, hmono, hall⟩ := ih hlapped₁ hnodes' hrun
      exact ⟨hlapped, fun v hv => hmono v (hcovers.mono v hv),
        List.forall_mem_cons.2 ⟨hmono i (hcovers.links i List.mem_cons_self), hall⟩⟩

/-- The groups have every node once, the first one those that node 0 reaches. -/
theorem preorderFull_spec (graph : Graph) (hcount : 0 < graph.count) {fuel : Nat} (hfuel : graph.count ≤ fuel) :
    ∃ groups, preorderFull graph fuel = some groups ∧
      Parted graph (fun v => decide (v < graph.count)) groups := by
  obtain ⟨-, laps, -, hlaps, -⟩ := sccOrder_full graph 1 hcount hfuel
  rw [reversePostorder, if_pos rfl] at hlaps
  simp only [Option.bind_eq_bind, Option.bind_eq_some_iff] at hlaps
  obtain ⟨n₀, hrun, -⟩ := hlaps
  obtain ⟨n, hn⟩ : ∃ n, walkAll graph (nodeCollection .preorder false) 1 fuel 0 ⟨[], 0⟩ = some n :=
    walkAll_total (fun _ _ => ⟨_, rfl⟩) hrun _
  refine ⟨n.order, by rw [preorderFull, hn]; rfl, ?_⟩
  simp only [walkAll, Option.bind_eq_bind, Option.bind_eq_some_iff] at hn
  obtain ⟨⟨visited, n₁⟩, h₁, ⟨visited', n'⟩, hrest, hfinish⟩ := hn
  cases hfinish
  have hlap : walkHelper graph (nodeCollection .preorder false) 1 fuel 0
      (fun _ => false, ⟨[] ++ [[]], ([] : List (List Nat)).length⟩) = some (visited, n₁) := h₁
  obtain ⟨l, hl, hadds, -⟩ := walkHelper_lap hlap rfl
  dsimp only at hl hadds
  have hreach : ∀ v, visited v = true ↔ ReflTransGen (graph.Edge 1) 0 v := walkHelper_visits h₁
  have hparted : Parted graph visited [0 :: l] := by
    refine ⟨by simpa using hadds.nodup, fun v => ?_, by simp, ⟨0 :: l, [], rfl, fun v => ?_⟩⟩
    · simpa using hadds.mem_iff v
    · rw [hadds.mem_iff, hreach]
      simp
  subst hl
  have hlapped : Lapped graph visited ⟨[] ++ [0 :: l], ([] : List (List Nat)).length⟩ :=
    ⟨hparted, rfl, fun v hv => reach_lt hcount ((hreach v).1 hv)⟩
  obtain ⟨hlapped', hmono, hall⟩ := hlapped.rest (fun i hi => by rw [List.mem_range'_1] at hi; omega) hrest
  refine ⟨hlapped'.once, fun v => ?_, hlapped'.nonempty, hlapped'.first⟩
  have hmem := hlapped'.mem_iff v
  rw [decide_eq_true_iff]
  refine hmem.trans ⟨hlapped'.bound v, fun hv => ?_⟩
  by_cases hzero : v = 0
  · rw [hzero]
    exact hmono 0 ((hreach 0).2 .refl)
  · exact hall v (by rw [List.mem_range'_1]; omega)

end Egalito.Analysis
