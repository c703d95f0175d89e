import Egalito.Analysis.Dominance
/-!
# What `Dominance` computes

The passes of the constructor end, and the list of a node has exactly the nodes
on every path to it.
-/

open Relation Egalito.Lib

namespace Egalito.Analysis

theorem reachable_iff {E : Nat → Nat → Prop} {root v : Nat} : Reachable E root v ↔ ReflTransGen E root v := by
  constructor
  · rintro ⟨p, hp⟩
    induction hp with
    | start => exact .refl
    | step _ hedge ih => exact ih.tail hedge
  · intro h
    induction h with
    | refl => exact ⟨_, .start⟩
    | tail _ hedge ih =>
      obtain ⟨p, hp⟩ := ih
      exact ⟨_, hp.step hedge⟩

/-! ## The numbers of the nodes -/

theorem fillMap_of_mem {order : List Nat} (hnodup : order.Nodup) (idMap : Nat → Int) {v : Nat} (hv : v ∈ order) :
    Dominance.fillMap order idMap v = order.idxOf v := by
  have hfold : ∀ (l : List Nat) (k : Nat) (m : Nat → Int), l.Nodup →
      (v ∉ l → (l.zipIdx k).foldl (fun m p => Function.update m p.1 p.2) m v = m v) ∧
      (v ∈ l → (l.zipIdx k).foldl (fun m p => Function.update m p.1 p.2) m v = (k + l.idxOf v : Nat)) := by
    intro l
    induction l with
    | nil => simp
    | cons a l ih =>
      intro k m hnodup
      rw [List.nodup_cons] at hnodup
      rw [List.zipIdx_cons, List.foldl_cons]
      obtain ⟨hout, hin⟩ := ih (k + 1) (Function.update m a k) hnodup.2
      refine ⟨fun hv => ?_, fun hv => ?_⟩
      · rw [List.mem_cons, not_or] at hv
        rw [hout hv.2, Function.update_of_ne hv.1]
      · by_cases hva : v = a
        · subst hva
          rw [hout hnodup.1, Function.update_self, List.idxOf_cons_self, Nat.add_zero]
        · rw [hin ((List.mem_cons.1 hv).resolve_left hva), List.idxOf_cons_ne l (Ne.symm hva)]
          push_cast
          omega
  have := (hfold order 0 idMap hnodup).2 hv
  rw [Nat.zero_add] at this
  exact this

section Order

variable {cfg : ControlFlowGraph} {order : List Nat}

theorem idxOf_root (hn : Numbering (cfg.toGraph.Edge 1) 0 order) : order.idxOf 0 = 0 := by
  obtain ⟨rest, rfl⟩ := hn.head
  exact List.idxOf_cons_self

theorem exists_earlier (hn : Numbering (cfg.toGraph.Edge 1) 0 order) {v : Nat} (hv : v ∈ order) (h0 : v ≠ 0) :
    ∃ u ∈ order, cfg.toGraph.Edge 1 u v ∧ order.idxOf u < order.idxOf v := by
  obtain ⟨front, back, rfl⟩ := List.append_of_mem hv
  have hnot : v ∉ front := fun hf => by
    have := List.nodup_append.1 hn.nodup
    exact this.2.2 v hf v List.mem_cons_self rfl
  obtain ⟨u, hu, hedge⟩ := hn.earlier front v back rfl h0
  refine ⟨u, List.mem_append_left _ hu, hedge, ?_⟩
  rw [List.idxOf_append_of_mem hu, List.idxOf_append_of_notMem hnot, List.idxOf_cons_self, Nat.add_zero]
  exact List.idxOf_lt_length_of_mem hu

/-- The trees that the passes work on. -/
abbrev GoodTree (cfg : ControlFlowGraph) (order : List Nat) : (Nat → Option Nat) → Prop :=
  Good (cfg.toGraph.Edge 1) 0 (order.idxOf ·)

theorem ranks_of_sound (hn : Numbering (cfg.toGraph.Edge 1) 0 order) {idoms : Nat → Option Nat}
    (hs : Sound (cfg.toGraph.Edge 1) 0 (order.idxOf ·) idoms) :
    Ranks (Dominance.fillMap order fun _ => -1) (order.idxOf ·) 0 idoms := by
  have hmem : ∀ a, (idoms a).isSome → a ∈ order := fun a ha => by
    obtain ⟨c, hc⟩ := Option.isSome_iff_exists.1 ha
    exact (hn.mem_iff a).2 (reachable_iff.1 (hs.reached a c hc))
  refine ⟨fun a b ha hb => ?_, fun a b ha hb h => (List.idxOf_inj (hmem a ha)).1 h, fun a ha => ?_⟩
  · rw [fillMap_of_mem hn.nodup _ (hmem a ha), fillMap_of_mem hn.nodup _ (hmem b hb)]
    omega
  · rw [idxOf_root hn]
    exact Nat.zero_le _

end Order

/-! ## One pass -/

section Pass

variable {cfg : ControlFlowGraph} {order : List Nat} {fuel : Nat}

/-- The predecessors of a node in the tree. -/
def TreePred (cfg : ControlFlowGraph) (idoms : Nat → Option Nat) (x p : Nat) : Prop :=
  (idoms p).isSome ∧ cfg.toGraph.Edge 1 p x

/-- The state of a pass after the nodes of `done`. -/
structure InPass (cfg : ControlFlowGraph) (order : List Nat) (start : Nat → Option Nat) (done : List Nat)
    (idoms : Nat → Option Nat) (changed : Bool) : Prop where
  advanced : Advanced (cfg.toGraph.Edge 1) 0 (order.idxOf ·) start idoms done.length
  total : ∀ v ∈ done, (idoms v).isSome
  differs : changed = true → ∃ x ∈ done, idoms x ≠ start x
  same : changed = false → idoms = start ∧
    ∀ x ∈ done, x ≠ 0 → ∀ q, start x = some q → IsMeet start (TreePred cfg start x) q

variable (hn : Numbering (cfg.toGraph.Edge 1) 0 order) (hfuel : 2 * order.length + 2 ≤ fuel)

include hn

theorem mem_order_of_isSome {idoms : Nat → Option Nat} (hs : Sound (cfg.toGraph.Edge 1) 0 (order.idxOf ·) idoms)
    {a : Nat} (ha : (idoms a).isSome) : a ∈ order := by
  obtain ⟨c, hc⟩ := Option.isSome_iff_exists.1 ha
  exact (hn.mem_iff a).2 (reachable_iff.1 (hs.reached a c hc))

theorem mem_backward_iff {x p : Nat} (hx : x ∈ order) (hp : p ∈ order) :
    p ∈ cfg.links (-1) x ↔ cfg.toGraph.Edge 1 p x := by
  have hlt : ∀ v ∈ order, v < cfg.count := fun v hv => reach_lt cfg.nonempty ((hn.mem_iff v).1 hv)
  exact (cfg.transposed p x (hlt p hp) (hlt x hx)).symm

include hfuel

theorem updateNode_spec {idoms : Nat → Option Nat} (hs : Sound (cfg.toGraph.Edge 1) 0 (order.idxOf ·) idoms)
    {x : Nat} (hx : x ∈ order) (h0 : x ≠ 0) (hsup : ∃ p, TreePred cfg idoms x p) (changed : Bool) :
    ∃ q, IsMeet idoms (TreePred cfg idoms x) q ∧
      Dominance.updateNode (Dominance.fillMap order fun _ => -1) cfg fuel (idoms, changed) x =
        some (Function.update idoms x (some q), if idoms x = some q then changed else true) := by
  have hmem : ∀ {a}, (idoms a).isSome → a ∈ order := fun ha => mem_order_of_isSome hn hs ha
  have hbound : ∀ a b, (idoms a).isSome → (idoms b).isSome → order.idxOf a + order.idxOf b + 2 ≤ fuel := by
    intro a b ha hb
    have := List.idxOf_lt_length_of_mem (hmem ha)
    have := List.idxOf_lt_length_of_mem (hmem hb)
    omega
  have hiff : ∀ p, (idoms p).isSome ∧ p ∈ cfg.links (-1) x ↔ TreePred cfg idoms x p := fun p =>
    and_congr_right fun hp => mem_backward_iff hn hx (hmem hp)
  obtain ⟨p, hp⟩ := hsup
  have hlinks : ∃ p ∈ cfg.links (-1) x, (idoms p).isSome := ⟨p, ((hiff p).2 hp).2, hp.1⟩
  obtain ⟨q, hq, hmeet⟩ := chooseIdom_spec hs.toRanked (ranks_of_sound hn hs) hbound hlinks
  refine ⟨q, ⟨fun p hp => hmeet.above p ((hiff p).2 hp), fun z hz => hmeet.nearest z fun p hp =>
    hz p ((hiff p).1 hp)⟩, ?_⟩
  rw [Dominance.updateNode, if_neg h0, hq]
  simp only [Option.bind_eq_bind, Option.bind_some]
  by_cases heq : idoms x = some q
  · rw [if_neg (by simp [heq]), if_pos heq, ← heq, Function.update_eq_self]
    rfl
  · rw [if_pos heq, if_neg heq]
    rfl

theorem InPass.step {start : Nat → Option Nat} (hstart : GoodTree cfg order start) {done todo : List Nat} {x : Nat}
    (horder : order = done ++ x :: todo) (h0 : x ≠ 0) {idoms : Nat → Option Nat} {changed : Bool}
    (h : InPass cfg order start done idoms changed) :
    ∃ idoms' changed', Dominance.updateNode (Dominance.fillMap order fun _ => -1) cfg fuel (idoms, changed) x =
      some (idoms', changed') ∧ InPass cfg order start (done ++ [x]) idoms' changed' := by
  have hx : x ∈ order := by rw [horder]; simp
  have hnot : x ∉ done := fun hd => by
    have hnodup := hn.nodup
    rw [horder] at hnodup
    exact (List.nodup_append.1 hnodup).2.2 x hd x List.mem_cons_self rfl
  have hrank : order.idxOf x = done.length := by
    rw [horder, List.idxOf_append_of_notMem hnot, List.idxOf_cons_self, Nat.add_zero]
  have hreach : Reachable (cfg.toGraph.Edge 1) 0 x := reachable_iff.2 ((hn.mem_iff x).1 hx)
  have hinj : ∀ a b, Reachable (cfg.toGraph.Edge 1) 0 a → Reachable (cfg.toGraph.Edge 1) 0 b →
      order.idxOf a = order.idxOf b → a = b := fun a b ha _ hab =>
    (List.idxOf_inj ((hn.mem_iff a).2 (reachable_iff.1 ha))).1 hab
  -- the earlier predecessor has been updated before
  have hsup : ∃ p, (idoms p).isSome ∧ cfg.toGraph.Edge 1 p x ∧ order.idxOf p < order.idxOf x := by
    obtain ⟨front, back, hsplit⟩ := List.append_of_mem hx
    obtain ⟨u, hu, hedge⟩ := hn.earlier done x todo horder h0
    refine ⟨u, h.total u hu, hedge, ?_⟩
    rw [hrank, horder, List.idxOf_append_of_mem hu]
    exact List.idxOf_lt_length_of_mem hu
  have hsound : Sound (cfg.toGraph.Edge 1) 0 (order.idxOf ·) idoms := h.advanced.sound
  obtain ⟨q, hmeet, hrun⟩ := updateNode_spec hn hfuel hsound hx h0 (hsup.imp fun p hp => ⟨hp.1, hp.2.1⟩) changed
  refine ⟨_, _, hrun, ?_, fun v hv => ?_, fun hc => ?_, fun hc => ?_⟩
  · rw [List.length_append, List.length_singleton]
    exact h.advanced.step hstart hrank h0 hreach hinj hsup hmeet
  · by_cases hvx : v = x
    · rw [hvx, Function.update_self]
      rfl
    · rw [Function.update_of_ne hvx]
      exact h.total v ((List.mem_append.1 hv).resolve_right fun hm => hvx (List.mem_singleton.1 hm))
  · have hlater : idoms x = start x := h.advanced.later x hrank.ge
    by_cases heq : idoms x = some q
    · obtain ⟨y, hy, hne⟩ := h.differs (by simpa [heq] using hc)
      refine ⟨y, List.mem_append_left _ hy, ?_⟩
      have hyx : y ≠ x := fun he => hnot (he ▸ hy)
      rwa [Function.update_of_ne hyx]
    · refine ⟨x, by simp, ?_⟩
      rw [Function.update_self, ← hlater]
      exact Ne.symm heq
  · have heq : idoms x = some q := by
      by_contra hne
      simp [hne] at hc
    obtain ⟨hsame, hdone⟩ := h.same (by simpa [heq] using hc)
    subst hsame
    refine ⟨by rw [← heq, Function.update_eq_self], fun y hy hy0 q' hq' => ?_⟩
    rcases List.mem_append.1 hy with hy | hy
    · exact hdone y hy hy0 q' hq'
    · obtain rfl := List.mem_singleton.1 hy
      rw [heq, Option.some_inj] at hq'
      exact hq' ▸ hmeet

/-- A whole pass over a tree that has the root. -/
theorem pass_spec {start : Nat → Option Nat} (hstart : GoodTree cfg order start) :
    ∃ idoms changed, order.foldlM (Dominance.updateNode (Dominance.fillMap order fun _ => -1) cfg fuel) (start, false) =
      some (idoms, changed) ∧ InPass cfg order start order idoms changed := by
  have hloop : ∀ (todo done : List Nat) idoms changed, order = done ++ todo → 0 ∈ done →
      InPass cfg order start done idoms changed → ∃ idoms' changed',
        todo.foldlM (Dominance.updateNode (Dominance.fillMap order fun _ => -1) cfg fuel) (idoms, changed) =
          some (idoms', changed') ∧ InPass cfg order start order idoms' changed' := by
    intro todo
    induction todo with
    | nil =>
      intro done idoms changed horder _ h
      rw [List.append_nil] at horder
      exact ⟨idoms, changed, rfl, by rwa [← horder] at h⟩
    | cons x todo ih =>
      intro done idoms changed horder hroot h
      have h0 : x ≠ 0 := fun he => by
        have hnodup := hn.nodup
        rw [horder] at hnodup
        exact (List.nodup_append.1 hnodup).2.2 0 hroot x List.mem_cons_self he.symm
      obtain ⟨idoms₁, changed₁, h₁, hin⟩ := h.step hn hfuel hstart horder h0
      obtain ⟨idoms', changed', hrun, hin'⟩ := ih (done ++ [x]) idoms₁ changed₁
        (by rw [horder, List.append_assoc]; rfl) (List.mem_append_left _ hroot) hin
      refine ⟨idoms', changed', ?_, hin'⟩
      rw [List.foldlM_cons, h₁]
      exact hrun
  obtain ⟨rest, hrest⟩ := hn.head
  have hfirst : InPass cfg order start [0] start false := by
    refine ⟨hstart.advanced 1, fun v hv => ?_, (nomatch ·), fun _ => ⟨rfl, fun x hx hx0 => ?_⟩⟩
    · rw [List.mem_singleton.1 hv, hstart.atRoot]
      rfl
    · exact absurd (List.mem_singleton.1 hx) hx0
  obtain ⟨idoms, changed, hrun, hin⟩ := hloop rest [0] start false hrest (List.mem_singleton_self 0) hfirst
  refine ⟨idoms, changed, ?_, hin⟩
  have hhead : Dominance.updateNode (Dominance.fillMap order fun _ => -1) cfg fuel (start, false) 0 =
      some (start, false) := by
    rw [Dominance.updateNode, if_pos rfl, ← hstart.atRoot, Function.update_eq_self]
  calc order.foldlM _ (start, false) = (0 :: rest).foldlM _ (start, false) := by rw [← hrest]
    _ = rest.foldlM _ (start, false) := by rw [List.foldlM_cons, hhead]; rfl
    _ = _ := hrun

end Pass

/-! ## All passes -/

section Iterate

variable {cfg : ControlFlowGraph} {order : List Nat} {fuel : Nat}

/-- The ranks of the parents, which a pass only lowers. -/
def parentRanks (order : List Nat) (idoms : Nat → Option Nat) : Nat :=
  (order.map fun x => order.idxOf ((idoms x).getD 0)).sum

variable (cfg order) in
/-- The tree after the first node. -/
theorem goodTree_root : GoodTree cfg order (Function.update (fun _ => none) 0 (some 0)) := by
  have hroot : ∀ b c, Function.update (fun _ => none) 0 (some 0) b = some c → b = 0 ∧ c = 0 := fun b c h => by
    by_cases hb : b = 0
    · rw [hb, Function.update_self, Option.some_inj] at h
      exact ⟨hb, h.symm⟩
    · rw [Function.update_of_ne hb] at h
      cases h
  refine ⟨⟨⟨Function.update_self .., fun b c h hb => ?_, fun b c h => ?_⟩, fun b c h => ?_, fun b c h hb => ?_⟩,
    fun b c h hb => ?_⟩
  · exact absurd (hroot b c h).1 hb
  · rw [(hroot b c h).2, Function.update_self]
    rfl
  · rw [(hroot b c h).1]
    exact ⟨_, .start⟩
  · exact absurd (hroot b c h).1 hb
  · exact absurd (hroot b c h).1 hb

/-- A pass that changes a whole tree lowers the ranks. -/
theorem parentRanks_lt {start idoms : Nat → Option Nat} (h : InPass cfg order start order idoms true)
    (hall : ∀ v ∈ order, (start v).isSome) : parentRanks order idoms < parentRanks order start := by
  have hle : ∀ x ∈ order, order.idxOf ((idoms x).getD 0) ≤ order.idxOf ((start x).getD 0) ∧
      (idoms x ≠ start x → order.idxOf ((idoms x).getD 0) < order.idxOf ((start x).getD 0)) := fun x hx => by
    obtain ⟨o, ho⟩ := Option.isSome_iff_exists.1 (hall x hx)
    obtain ⟨m, hm, habove⟩ := h.advanced.moved x o ho
    have hrank := h.advanced.sound.rank_le habove
    rw [ho, hm]
    refine ⟨hrank, fun hne => lt_of_le_of_ne hrank fun heq => hne ?_⟩
    rw [h.advanced.sound.eq_of_rank_le habove heq.ge]
  obtain ⟨x, hx, hne⟩ := h.differs rfl
  exact List.sum_lt_sum _ _ (fun x hx => (hle x hx).1) ⟨x, hx, (hle x hx).2 hne⟩

theorem parentRanks_le (order : List Nat) (idoms : Nat → Option Nat) :
    parentRanks order idoms ≤ order.length * order.length := by
  have h := List.sum_le_card_nsmul (order.map fun x => order.idxOf ((idoms x).getD 0)) order.length fun n hn => by
    obtain ⟨x, -, rfl⟩ := List.mem_map.1 hn
    exact List.idxOf_le_length
  rwa [List.length_map, smul_eq_mul] at h

/-- What the loop leaves: a tree of all nodes that the last pass has not changed. -/
structure Settled (cfg : ControlFlowGraph) (order : List Nat) (idoms : Nat → Option Nat) : Prop where
  good : GoodTree cfg order idoms
  total : ∀ v ∈ order, (idoms v).isSome
  meet : ∀ x ∈ order, x ≠ 0 → ∀ q, idoms x = some q → IsMeet idoms (TreePred cfg idoms x) q

variable (hn : Numbering (cfg.toGraph.Edge 1) 0 order) (hfuel : 2 * order.length + 2 ≤ fuel)

include hn

theorem InPass.good {start idoms : Nat → Option Nat} {changed : Bool} (h : InPass cfg order start order idoms changed) :
    GoodTree cfg order idoms :=
  h.advanced.finish fun _ hb => List.idxOf_lt_length_of_mem (mem_order_of_isSome hn h.advanced.sound hb)

include hfuel

theorem iterate_total {rounds : Nat} {start : Nat → Option Nat} (hstart : GoodTree cfg order start)
    (hall : ∀ v ∈ order, (start v).isSome) (hrounds : parentRanks order start < rounds) :
    ∃ idoms, Dominance.iterate (Dominance.fillMap order fun _ => -1) cfg fuel order rounds start = some idoms ∧
      Settled cfg order idoms := by
  induction rounds generalizing start with
  | zero => omega
  | succ rounds ih =>
    obtain ⟨idoms, changed, hpass, hin⟩ := pass_spec hn hfuel hstart
    rw [Dominance.iterate, hpass]
    simp only [Option.bind_eq_bind, Option.bind_some]
    cases changed with
    | true =>
      have hlt := parentRanks_lt hin hall
      rw [if_pos rfl]
      exact ih (hin.good hn) hin.total (by omega)
    | false =>
      obtain ⟨rfl, hmeet⟩ := hin.same rfl
      exact ⟨idoms, rfl, hstart, hall, hmeet⟩

omit hfuel in
/-- A pass starts with the root. -/
theorem foldlM_updateNode (idMap : Nat → Int) (idoms : Nat → Option Nat) :
    order.foldlM (Dominance.updateNode idMap cfg fuel) (idoms, false) =
      order.foldlM (Dominance.updateNode idMap cfg fuel) (Function.update idoms 0 (some 0), false) := by
  obtain ⟨rest, rfl⟩ := hn.head
  have hstep : ∀ π, Dominance.updateNode idMap cfg fuel (π, false) 0 = some (Function.update π 0 (some 0), false) :=
    fun π => if_pos rfl
  rw [List.foldlM_cons, List.foldlM_cons, hstep, hstep, Function.update_idem]

/-- The first pass makes the tree whole. -/
theorem iterate_spec {rounds : Nat} (hrounds : order.length * order.length + 2 ≤ rounds) :
    ∃ idoms, Dominance.iterate (Dominance.fillMap order fun _ => -1) cfg fuel order rounds (fun _ => none) = some idoms ∧
      Settled cfg order idoms := by
  obtain ⟨rounds, rfl⟩ : ∃ r, rounds = r + 1 := ⟨rounds - 1, by omega⟩
  obtain ⟨idoms, changed, hpass, hin⟩ := pass_spec hn hfuel (goodTree_root cfg order)
  have hfirst : order.foldlM (Dominance.updateNode (Dominance.fillMap order fun _ => -1) cfg fuel)
      (fun _ => none, false) = some (idoms, changed) := by
    rw [foldlM_updateNode hn, hpass]
  rw [Dominance.iterate, hfirst]
  simp only [Option.bind_eq_bind, Option.bind_some]
  cases changed with
  | true =>
    rw [if_pos rfl]
    have hle := parentRanks_le order idoms
    exact iterate_total hn hfuel (hin.good hn) hin.total (by omega)
  | false =>
    obtain ⟨rfl, hmeet⟩ := hin.same rfl
    exact ⟨_, rfl, goodTree_root cfg order, hin.total, hmeet⟩

end Iterate

/-! ## The dominators -/

section Queries

variable {cfg : ControlFlowGraph} {order : List Nat} {idoms : Nat → Option Nat}

/-- Above a node of the final tree are the nodes on every path. -/
theorem Settled.above_iff (hn : Numbering (cfg.toGraph.Edge 1) 0 order) (h : Settled cfg order idoms) {v : Nat}
    (hv : v ∈ order) (d : Nat) : Above idoms d v ↔ Dominates (cfg.toGraph.Edge 1) 0 d v := by
  have hmem : ∀ {v}, Reachable (cfg.toGraph.Edge 1) 0 v → v ∈ order := fun hv =>
    (hn.mem_iff _).2 (reachable_iff.1 hv)
  refine h.good.above_iff_dominates (fun v hv => h.total v (hmem hv)) (fun x y hy hx p hp hedge => ?_)
    (reachable_iff.2 ((hn.mem_iff v).1 hv))
  have hxo : x ∈ order := hmem (h.good.reached x y hy)
  exact (h.meet x hxo hx y hy).above p ⟨hp, hedge⟩

/-- The list of a node is the way up. -/
theorem getDominators_spec {dom : Dominance} (h : Settled cfg order dom.idoms) {fuel id : Nat} (hid : id ∈ order)
    (hfuel : order.idxOf id < fuel) :
    ∃ l, dom.getDominators fuel id = some l ∧ ∀ d, d ∈ l ↔ Above dom.idoms d id := by
  have hsome : ∀ fuel v, order.idxOf v < fuel → (dom.idoms v).isSome →
      ∃ l, dom.getDominators fuel v = some l ∧ ∀ d, d ∈ l ↔ Above dom.idoms d v := by
    intro fuel
    induction fuel with
    | zero => omega
    | succ fuel ih =>
      intro v hlt hv
      rw [Dominance.getDominators]
      by_cases h0 : v = 0
      · subst h0
        refine ⟨[0], if_neg (by simp), fun d => ?_⟩
        rw [List.mem_singleton]
        exact ⟨fun hd => hd ▸ .refl d, h.good.eq_root⟩
      · obtain ⟨idom, hidom⟩ := Option.isSome_iff_exists.1 hv
        have hlow := h.good.lower v idom hidom h0
        obtain ⟨l, hl, hmem⟩ := ih idom (by omega) (h.good.parent v idom hidom)
        refine ⟨v :: l, ?_, fun d => ?_⟩
        · rw [if_pos h0, hidom]
          simp only [Option.bind_eq_bind, Option.bind_some, hl]
          rfl
        · rw [List.mem_cons, hmem]
          constructor
          · rintro (rfl | hd)
            · exact .refl d
            · exact .climb hidom hd
          · intro hd
            by_cases hdv : d = v
            · exact .inl hdv
            · exact .inr (hd.of_parent hdv hidom)
  exact hsome fuel id hfuel (h.total id hid)

/-- The constructor ends with a settled tree. -/
theorem make_spec (cfg : ControlFlowGraph) {fuel : Nat} (hfuel : (cfg.count + 2) * (cfg.count + 2) ≤ fuel) :
    ∃ dom order, Dominance.make cfg fuel = some dom ∧ dom.cfg = cfg ∧ Numbering (cfg.toGraph.Edge 1) 0 order ∧
      order.length ≤ cfg.count ∧ Settled cfg order dom.idoms := by
  have hcount : cfg.count ≤ fuel := by nlinarith
  obtain ⟨order, horder, hn⟩ := numbering_reversePostorder cfg.toGraph cfg.nonempty hcount
  have hlength : order.length ≤ cfg.count := by
    have hsub : order ⊆ List.range cfg.count := fun v hv =>
      List.mem_range.2 (reach_lt cfg.nonempty ((hn.mem_iff v).1 hv))
    simpa using (hn.nodup.subperm hsub).length_le
  obtain ⟨idoms, hrun, hsettled⟩ := iterate_spec hn (show _ ≤ fuel by nlinarith) (show _ ≤ fuel by nlinarith)
  obtain ⟨visited, s, n, done, hscc, -⟩ := (rests_reset cfg.toGraph 1).walk rfl cfg.nonempty hcount
  have hreset : (sccCollection cfg.toGraph 1).reset .empty = SccCollection.reset .empty := rfl
  refine ⟨⟨cfg, idoms, Dominance.fillMap order fun _ => -1⟩, order, ?_, rfl, hn, hlength, hsettled⟩
  rw [Dominance.make, sccOrder, if_neg (by simp), walk, hreset, hscc, horder]
  simp only [Option.bind_eq_bind, Option.bind_some, hrun]
  rfl

/-- For every control flow graph and enough fuel, the constructor ends, and the dominators of a node that is
reached from node 0 are the nodes on every path from there. -/
theorem dominators_exact (cfg : ControlFlowGraph) (fuel : Nat) (hfuel : (cfg.count + 2) * (cfg.count + 2) ≤ fuel) :
    ∃ dom, Dominance.make cfg fuel = some dom ∧ ∀ id, ReflTransGen (cfg.toGraph.Edge 1) 0 id →
      ∃ l, dom.getDominators fuel id = some l ∧ ∀ d, d ∈ l ↔ ∀ p, PathTo (cfg.toGraph.Edge 1) 0 p id → d ∈ p := by
  obtain ⟨dom, order, hmake, -, hn, hlength, hsettled⟩ := make_spec cfg hfuel
  refine ⟨dom, hmake, fun id hid => ?_⟩
  have hmem := (hn.mem_iff id).2 hid
  have hlt := List.idxOf_lt_length_of_mem hmem
  obtain ⟨l, hl, hiff⟩ := getDominators_spec hsettled hmem (show _ < fuel by nlinarith)
  exact ⟨l, hl, fun d => (hiff d).trans (hsettled.above_iff hn hmem d)⟩

/-- Two branches that meet again, and a loop back to the first node. -/
def branchesGraph : ControlFlowGraph where
  count := 4
  links dir id :=
    let links := if dir = 1 then [[1, 2], [3], [3], [0]] else [[3], [0], [0], [1, 2]]
    links.getD id []
  links_lt dir := by
    by_cases h : dir = 1
    · simp only [h, if_true]
      decide
    · simp only [h, if_false]
      decide
  transposed u v hu hv := by
    interval_cases u <;> interval_cases v <;> decide
  nonempty := by decide

/-- Node 3 is dominated by the first node and itself only. -/
theorem dominators_exact_branches : ∃ dom, Dominance.make branchesGraph 36 = some dom ∧
    dom.getDominators 36 3 = some [3, 0] ∧ ∀ d, d ∈ [3, 0] ↔ ∀ p, PathTo (branchesGraph.toGraph.Edge 1) 0 p 3 → d ∈ p := by
  obtain ⟨dom, hdom, hall⟩ := dominators_exact branchesGraph 36 (by decide)
  have hrun : (Dominance.make branchesGraph 36).bind (·.getDominators 36 3) = some [3, 0] := by decide +kernel
  rw [hdom, Option.bind_some] at hrun
  have h1 : branchesGraph.toGraph.Edge 1 0 1 := by show 1 ∈ [1, 2]; decide
  have h3 : branchesGraph.toGraph.Edge 1 1 3 := by show 3 ∈ [3]; decide
  obtain ⟨l, hl, hiff⟩ := hall 3 (.tail (.single h1) h3)
  rw [hrun] at hl
  cases hl
  exact ⟨dom, hdom, hrun, hiff⟩

end Queries

end Egalito.Analysis
