import Egalito.Analysis.Postorder
/-!
# Dominators of a control flow graph

`Dominance` of `analysis/dominance.cpp`. The constructor puts the immediate
dominators together in passes over the reverse postorder, `intersect` walks up
from two nodes at once.
-/

open Relation Egalito.Lib

namespace Egalito.Analysis

/-- A link is added together with its reverse. -/
structure ControlFlowGraph extends Graph where
  transposed : ∀ u v, u < count → v < count → (v ∈ links 1 u ↔ u ∈ links (-1) v)
  nonempty : 0 < count

/-- `none` in `idoms` is the -1 of the source. -/
structure Dominance where
  cfg : ControlFlowGraph
  idoms : Nat → Option Nat
  idMap : Nat → Int

namespace Dominance

/-! ## The constructor -/

section Construction

variable (idMap : Nat → Int) (idoms : Nat → Option Nat)

/-- One of the inner loops of `intersect`: up from a finger, until it is not later than the other. -/
def climb (other : Nat) : Nat → Nat → Option Nat
  | 0, _ => none
  | fuel + 1, finger =>
    match idoms finger with
    | some idom => if idMap finger > idMap other then climb other fuel idom else some finger
    | none => some finger

/-- `none` when the fuel runs out. -/
def intersect : Nat → Nat → Nat → Option Nat
  | 0, _, _ => none
  | fuel + 1, finger1, finger2 =>
    if finger1 = finger2 then some finger1
    else if idoms finger1 = none then some finger2
    else if idoms finger2 = none then some finger1
    else do
      let finger1 ← climb idMap idoms finger2 fuel finger1
      let finger2 ← climb idMap idoms finger1 fuel finger2
      intersect fuel finger1 finger2

/-- The loop over the backward links of a node; `none` inside is `first`. -/
def chooseIdom (fuel : Nat) (links : List Nat) : Option (Option Nat) :=
  links.foldlM (fun idom pred =>
    if (idoms pred).isSome then
      match idom with
      | none => some (some pred)
      | some idom => some <$> intersect idMap idoms fuel pred idom
    else some idom) none

variable (cfg : ControlFlowGraph) (fuel : Nat)

/-- One round of the loop over the order, with `changed`. -/
def updateNode (st : (Nat → Option Nat) × Bool) (id : Nat) : Option ((Nat → Option Nat) × Bool) :=
  if id = 0 then some (Function.update st.1 0 (some 0), st.2)
  else do
    let idom ← chooseIdom idMap st.1 fuel (cfg.links (-1) id)
    if st.1 id ≠ idom then return (Function.update st.1 id idom, true) else return st

/-- `while(changed)`. -/
def iterate (order : List Nat) : Nat → (Nat → Option Nat) → Option (Nat → Option Nat)
  | 0, _ => none
  | rounds + 1, idoms => do
    let (idoms, changed) ← order.foldlM (updateNode idMap cfg fuel) (idoms, false)
    if changed then iterate order rounds idoms else return idoms

end Construction

/-- `idMap[order[i]] = i` for the nodes of an order. -/
def fillMap (order : List Nat) (idMap : Nat → Int) : Nat → Int :=
  order.zipIdx.foldl (fun m p => Function.update m p.1 p.2) idMap

/-- The constructor. The components are only for the log. -/
def make (cfg : ControlFlowGraph) (fuel : Nat) : Option Dominance := do
  let _ ← sccOrder cfg.toGraph 1 false fuel
  let order ← genOrder cfg.toGraph 1 .postorder true fuel 0
  let idMap := fillMap order fun _ => -1
  let idoms ← iterate idMap cfg fuel order fuel fun _ => none
  return ⟨cfg, idoms, idMap⟩

/-! ## The queries -/

/-- `none` is an index of -1, or a walk that is longer than the fuel. -/
def getDominators (dom : Dominance) : Nat → Nat → Option (List Nat)
  | 0, _ => none
  | fuel + 1, id =>
    if id ≠ 0 then do
      let idom ← dom.idoms id
      return id :: (← dom.getDominators fuel idom)
    else some [0]

end Dominance

/-! ## `intersect` -/

section Intersect

variable {root : Nat} {idMap : Nat → Int} {idoms : Nat → Option Nat} {rank : Nat → Nat}

/-- On the nodes of the tree, `idMap` is a numbering from the root on. -/
structure Ranks (idMap : Nat → Int) (rank : Nat → Nat) (root : Nat) (idoms : Nat → Option Nat) : Prop where
  gt_iff : ∀ a b, (idoms a).isSome → (idoms b).isSome → (idMap a > idMap b ↔ rank b < rank a)
  inj : ∀ a b, (idoms a).isSome → (idoms b).isSome → rank a = rank b → a = b
  root_le : ∀ a, (idoms a).isSome → rank root ≤ rank a

variable (hr : Ranked idoms rank root) (hm : Ranks idMap rank root idoms)

include hr hm

/-- A finger stops at the first node above it that is not later than the other one. -/
theorem climb_spec {other finger fuel : Nat} (ho : (idoms other).isSome) (hf : (idoms finger).isSome)
    (hfuel : rank finger < fuel) : ∃ top, Dominance.climb idMap idoms other fuel finger = some top ∧
      Above idoms top finger ∧ rank top ≤ rank other ∧
      ∀ z, Above idoms z finger → Above idoms z other → Above idoms z top := by
  induction fuel generalizing finger with
  | zero => omega
  | succ fuel ih =>
    obtain ⟨idom, hidom⟩ := Option.isSome_iff_exists.1 hf
    by_cases hgt : rank other < rank finger
    · have hroot : finger ≠ root := fun he => by
        have := hm.root_le other ho
        rw [he] at hgt
        omega
      have hlow := hr.lower finger idom hidom hroot
      obtain ⟨top, htop, habove, hle, hcommon⟩ := ih (hr.parent finger idom hidom) (by omega)
      refine ⟨top, ?_, .climb hidom habove, hle, fun z hz hzo => hcommon z (hz.of_parent ?_ hidom) hzo⟩
      · simp only [Dominance.climb, hidom, (hm.gt_iff finger other hf ho).2 hgt, if_true, htop]
      · intro he
        have := hr.rank_le hzo
        rw [he] at this
        omega
    · refine ⟨finger, ?_, .refl finger, not_lt.1 hgt, fun z hz _ => hz⟩
      simp only [Dominance.climb, hidom, if_neg (fun h => hgt ((hm.gt_iff finger other hf ho).1 h))]

/-- The fingers meet at the nearest common ancestor. -/
theorem intersect_spec {finger1 finger2 fuel : Nat} (h1 : (idoms finger1).isSome) (h2 : (idoms finger2).isSome)
    (hfuel : rank finger1 + rank finger2 + 2 ≤ fuel) : ∃ q,
      Dominance.intersect idMap idoms fuel finger1 finger2 = some q ∧
      IsMeet idoms (fun p => p = finger1 ∨ p = finger2) q := by
  induction fuel generalizing finger1 finger2 with
  | zero => omega
  | succ fuel ih =>
    rw [Dominance.intersect]
    by_cases he : finger1 = finger2
    · subst he
      refine ⟨finger1, if_pos rfl, fun p hp => ?_, fun z hz => hz finger1 (.inl rfl)⟩
      rw [or_self] at hp
      exact hp ▸ .refl p
    · rw [if_neg he, if_neg (Option.isSome_iff_ne_none.1 h1), if_neg (Option.isSome_iff_ne_none.1 h2)]
      obtain ⟨top1, htop1, habove1, hle1, hcommon1⟩ := climb_spec hr hm h2 h1 (show rank finger1 < fuel by omega)
      have hsome1 := hr.isSome habove1 h1
      obtain ⟨top2, htop2, habove2, hle2, hcommon2⟩ :=
        climb_spec hr hm hsome1 h2 (show rank finger2 < fuel by omega)
      -- one of the fingers has moved, because they are not on the same node
      have hne : rank finger1 ≠ rank finger2 := fun heq => he (hm.inj finger1 finger2 h1 h2 heq)
      have := hr.rank_le habove1
      have := hr.rank_le habove2
      obtain ⟨q, hq, hmeet⟩ := ih hsome1 (hr.isSome habove2 h2) (by omega)
      refine ⟨q, ?_, fun p hp => ?_, fun z hz => ?_⟩
      · simp only [htop1, htop2, Option.bind_eq_bind, Option.bind_some, hq]
      · rcases hp with rfl | rfl
        · exact (hmeet.above top1 (.inl rfl)).trans habove1
        · exact (hmeet.above top2 (.inr rfl)).trans habove2
      · have hz1 := hcommon1 z (hz finger1 (.inl rfl)) (hz finger2 (.inr rfl))
        have hz2 := hcommon2 z (hz finger2 (.inr rfl)) hz1
        refine hmeet.nearest z fun p hp => ?_
        rcases hp with rfl | rfl
        · exact hz1
        · exact hz2

/-- The loop over the links gives the nearest common ancestor of the predecessors in the tree. -/
theorem chooseIdom_spec {fuel : Nat}
    (hfuel : ∀ a b, (idoms a).isSome → (idoms b).isSome → rank a + rank b + 2 ≤ fuel) {links : List Nat}
    (hlinks : ∃ p ∈ links, (idoms p).isSome) : ∃ q, Dominance.chooseIdom idMap idoms fuel links = some (some q) ∧
      IsMeet idoms (fun p => (idoms p).isSome ∧ p ∈ links) q := by
  -- the state after some links is their nearest common ancestor, if one of them is in the tree
  have hloop : ∀ (rest seen : List Nat) (acc : Option Nat),
      (∀ q, acc = some q → (idoms q).isSome ∧ IsMeet idoms (fun p => (idoms p).isSome ∧ p ∈ seen) q) →
      (acc = none → ∀ p ∈ seen, idoms p = none) →
      ∃ acc', rest.foldlM (fun idom pred =>
          if (idoms pred).isSome then
            match idom with
            | none => some (some pred)
            | some idom => some <$> Dominance.intersect idMap idoms fuel pred idom
          else some idom) acc = some acc' ∧
        (∀ q, acc' = some q → (idoms q).isSome ∧ IsMeet idoms (fun p => (idoms p).isSome ∧ p ∈ seen ++ rest) q) ∧
        (acc' = none → ∀ p ∈ seen ++ rest, idoms p = none) := by
    intro rest
    induction rest with
    | nil =>
      intro seen acc hsome hnone
      exact ⟨acc, rfl, by simpa using hsome, by simpa using hnone⟩
    | cons pred rest ih =>
      intro seen acc hsome hnone
      have hseen : seen ++ pred :: rest = (seen ++ [pred]) ++ rest := by simp
      rw [List.foldlM_cons, hseen]
      by_cases hpred : (idoms pred).isSome
      · rw [if_pos hpred]
        cases acc with
        | none =>
          refine ih (seen ++ [pred]) (some pred) (fun q hq => ?_) (fun h => by cases h)
          cases hq
          refine ⟨hpred, fun p hp => ?_, fun z hz => hz pred ⟨hpred, by simp⟩⟩
          rcases List.mem_append.1 hp.2 with hps | hps
          · rw [hnone rfl p hps] at hp
            cases hp.1
          · exact List.mem_singleton.1 hps ▸ .refl p
        | some old =>
          obtain ⟨holdsome, hold⟩ := hsome old rfl
          obtain ⟨q, hq, hmeet⟩ := intersect_spec hr hm hpred holdsome (hfuel pred old hpred holdsome)
          simp only [hq, Option.map_eq_map, Option.map_some, Option.bind_eq_bind, Option.bind_some]
          refine ih (seen ++ [pred]) (some q) (fun q' hq' => ?_) (fun h => by cases h)
          cases hq'
          refine ⟨hr.isSome (hmeet.above pred (.inl rfl)) hpred, fun p hp => ?_, fun z hz => ?_⟩
          · rcases List.mem_append.1 hp.2 with hps | hps
            · exact (hmeet.above old (.inr rfl)).trans (hold.above p ⟨hp.1, hps⟩)
            · exact List.mem_singleton.1 hps ▸ hmeet.above pred (.inl rfl)
          · refine hmeet.nearest z fun p hp => ?_
            rcases hp with rfl | rfl
            · exact hz p ⟨hpred, by simp⟩
            · exact hold.nearest z fun p' hp' => hz p' ⟨hp'.1, List.mem_append_left _ hp'.2⟩
      · have hnot : idoms pred = none := by simpa using hpred
        rw [if_neg hpred]
        refine ih (seen ++ [pred]) acc (fun q hq => ?_) (fun h p hp => ?_)
        · obtain ⟨hqs, hmeet⟩ := hsome q hq
          refine ⟨hqs, fun p hp => hmeet.above p ⟨hp.1, ?_⟩, fun z hz => hmeet.nearest z fun p hp =>
            hz p ⟨hp.1, List.mem_append_left _ hp.2⟩⟩
          refine (List.mem_append.1 hp.2).resolve_right fun hps => hpred ?_
          rw [← List.mem_singleton.1 hps]
          exact hp.1
        · rcases List.mem_append.1 hp with hps | hps
          · exact hnone h p hps
          · exact List.mem_singleton.1 hps ▸ hnot
  obtain ⟨acc, hacc, hsome, hnone⟩ := hloop links [] none (fun _ h => by cases h) (fun _ p hp => by cases hp)
  rw [List.nil_append] at hsome hnone
  cases acc with
  | none =>
    obtain ⟨p, hp, hps⟩ := hlinks
    rw [hnone rfl p hp] at hps
    cases hps
  | some q => exact ⟨q, hacc, (hsome q rfl).2⟩

end Intersect

end Egalito.Analysis
