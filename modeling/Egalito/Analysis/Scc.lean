import Egalito.Analysis.Walker
import Egalito.Lib.Components
/-!
# The components that `SccCollection` finds

`Inv` is what holds of the collector whenever the walk is at the nodes `gray`,
from the deepest one up to the root. A node that has been visited is on the
stack or in an emitted component; the stack is ordered by discovery, an older
node of it reaches every newer one, and every node of it reaches a node of the
path. The link of a node is the discovery of some node of the stack that it
reaches, and no edge of a finished node escapes it.
-/

open Relation Egalito.Lib

namespace Egalito.Analysis

variable {E : Nat → Nat → Prop} {gray : List Nat} {visited : Nat → Bool} {s : SccCollection} {done : List (List Nat)}

variable (E gray visited s done) in
structure Inv : Prop where
  disc_lt : ∀ v, visited v = true → s.discovery v < s.disc
  sorted : s.stack.Pairwise fun x y => s.discovery y < s.discovery x
  split : ∀ v, visited v = true ↔ v ∈ s.stack ∨ v ∈ done.flatten
  apart : ∀ v ∈ s.stack, v ∉ done.flatten
  onStack : ∀ v, s.onStack v = true ↔ v ∈ s.stack
  onPath : ∀ v ∈ gray, v ∈ s.stack
  black : ∀ v, visited v = true → v ∉ gray → ∀ w, E v w → visited w = true
  older : ∀ x ∈ s.stack, ∀ y ∈ s.stack, s.discovery x ≤ s.discovery y → ReflTransGen E x y
  back : ∀ y ∈ s.stack, ∃ x ∈ gray, s.discovery x ≤ s.discovery y ∧ ReflTransGen E y x
  low_le : ∀ v, visited v = true → s.lowLink v ≤ s.discovery v
  low_reach : ∀ v ∈ s.stack, ∃ y ∈ s.stack, s.discovery y = s.lowLink v ∧ ReflTransGen E v y
  low_done : ∀ v ∈ done.flatten, ∀ x ∈ s.stack, s.discovery x < s.discovery v → s.discovery x < s.lowLink v
  emitted : s.sccOrder = done ++ [[]] ∧ s.scc = done.length
  components : Components E done

namespace Inv

theorem visited_of_mem (h : Inv E gray visited s done) {v : Nat} (hv : v ∈ s.stack) : visited v = true :=
  (h.split v).2 (Or.inl hv)

/-- A new node is reached by the whole stack. -/
theorem preVisit (h : Inv E gray visited s done) {id : Nat} (hid : visited id = false)
    (hreach : ∀ x ∈ gray, ReflTransGen E x id) :
    Inv E (id :: gray) (Function.update visited id true) (s.preVisit id) done := by
  have hstack : id ∉ s.stack := fun hmem => by simp [h.visited_of_mem hmem] at hid
  have hdone : id ∉ done.flatten := fun hmem => by simp [(h.split id).2 (Or.inr hmem)] at hid
  have hne : ∀ {v}, visited v = true → v ≠ id := fun hv he => by rw [he, hid] at hv; cases hv
  have hdisc : ∀ {v}, visited v = true → Function.update s.discovery id s.disc v = s.discovery v :=
    fun hv => Function.update_of_ne (hne hv) _ _
  have hlow : ∀ {v}, visited v = true → Function.update s.lowLink id s.disc v = s.lowLink v :=
    fun hv => Function.update_of_ne (hne hv) _ _
  have hon : ∀ {v}, v ∈ s.stack → visited v = true := h.visited_of_mem
  have hvis : ∀ v, Function.update visited id true v = true ↔ v = id ∨ visited v = true := fun v => by
    by_cases hv : v = id
    · simp [hv]
    · simp [hv]
  constructor <;> try simp only [SccCollection.preVisit, List.mem_cons, forall_eq_or_imp]
  case disc_lt =>
    intro v hv
    rcases (hvis v).1 hv with rfl | hv
    · simp
    · rw [hdisc hv]
      exact (h.disc_lt v hv).trans (Nat.lt_succ_self _)
  case sorted =>
    refine List.pairwise_cons.2 ⟨fun y hy => ?_, h.sorted.imp_of_mem fun hx hy hxy => ?_⟩
    · rw [Function.update_self, hdisc (hon hy)]
      exact h.disc_lt y (hon hy)
    · rw [hdisc (hon hx), hdisc (hon hy)]
      exact hxy
  case split =>
    intro v
    rw [hvis, h.split]
    tauto
  case apart => exact ⟨hdone, h.apart⟩
  case onStack =>
    intro v
    by_cases hv : v = id
    · simp [hv]
    · rw [Function.update_of_ne hv, h.onStack]
      simp [hv]
  case onPath => exact ⟨Or.inl trivial, fun v hv => Or.inr (h.onPath v hv)⟩
  case black =>
    intro v hv hnot w hedge
    rcases (hvis v).1 hv with rfl | hv
    · simp at hnot
    · exact (hvis w).2 (Or.inr (h.black v hv (fun hg => hnot (Or.inr hg)) w hedge))
  case older =>
    refine ⟨⟨fun _ => .refl, fun y hy hle => ?_⟩, fun x hx => ⟨fun _ => ?_, fun y hy hle => ?_⟩⟩
    · rw [Function.update_self, hdisc (hon hy)] at hle
      exact absurd (h.disc_lt y (hon hy)) (by omega)
    · obtain ⟨z, hz, -, hxz⟩ := h.back x hx
      exact hxz.trans (hreach z hz)
    · rw [hdisc (hon hx), hdisc (hon hy)] at hle
      exact h.older x hx y hy hle
  case back =>
    refine ⟨⟨id, Or.inl rfl, le_rfl, .refl⟩, fun y hy => ?_⟩
    obtain ⟨x, hx, hle, hyx⟩ := h.back y hy
    refine ⟨x, Or.inr hx, ?_, hyx⟩
    rw [hdisc (hon (h.onPath x hx)), hdisc (hon hy)]
    exact hle
  case low_le =>
    intro v hv
    rcases (hvis v).1 hv with rfl | hv
    · simp
    · rw [hdisc hv, hlow hv]
      exact h.low_le v hv
  case low_reach =>
    refine ⟨⟨id, Or.inl rfl, by simp, .refl⟩, fun v hv => ?_⟩
    obtain ⟨y, hy, hyl, hvy⟩ := h.low_reach v hv
    refine ⟨y, Or.inr hy, ?_, hvy⟩
    rw [hdisc (hon hy), hlow (hon hv), hyl]
  case low_done =>
    intro v hv
    have hvv : visited v = true := (h.split v).2 (Or.inr hv)
    rw [hdisc hvv, hlow hvv]
    refine ⟨fun hlt => ?_, fun x hx => ?_⟩
    · rw [Function.update_self] at hlt
      exact absurd (h.disc_lt v hvv) (by omega)
    · rw [hdisc (hon hx)]
      exact h.low_done v hv x hx
  case emitted => exact h.emitted
  case components => exact h.components

/-- Lowering the link of a node on the path to the discovery of a node on the stack that it reaches. -/
theorem lower (h : Inv E gray visited s done) {id y : Nat} (hid : id ∈ gray) (hy : y ∈ s.stack)
    (hreach : ReflTransGen E id y) (hle : s.discovery y ≤ s.lowLink id) :
    Inv E gray visited { s with lowLink := Function.update s.lowLink id (s.discovery y) } done := by
  have hids : id ∈ s.stack := h.onPath id hid
  refine ⟨h.disc_lt, h.sorted, h.split, h.apart, h.onStack, h.onPath, h.black, h.older, h.back, fun v hv => ?_,
    fun v hv => ?_, fun v hv x hx hlt => ?_, h.emitted, h.components⟩
  · by_cases hvi : v = id
    · subst hvi
      simp only [Function.update_self]
      exact hle.trans (h.low_le v hv)
    · simp only [Function.update_of_ne hvi]
      exact h.low_le v hv
  · by_cases hvi : v = id
    · subst hvi
      exact ⟨y, hy, by simp, hreach⟩
    · simp only [Function.update_of_ne hvi]
      exact h.low_reach v hv
  · have hvi : v ≠ id := fun he => h.apart id hids (he ▸ hv)
    simp only [Function.update_of_ne hvi]
    exact h.low_done v hv x hx hlt

theorem lateVisit (h : Inv E gray visited s done) {id n : Nat} (hid : id ∈ gray) (hedge : E id n) :
    Inv E gray visited (s.lateVisit id n) done := by
  unfold SccCollection.lateVisit
  split
  case isTrue hon =>
    rcases le_total (s.lowLink id) (s.discovery n) with hle | hle
    · rw [min_eq_left hle, Function.update_eq_self]
      exact h
    · rw [min_eq_right hle]
      exact h.lower hid ((h.onStack n).1 hon) (.single hedge) hle
  case isFalse => exact h

/-! ## Finishing a node -/

/-- A link that the first loop of `postVisit` looks at. -/
theorem lowerLink (h : Inv E gray visited s done) {id n : Nat} (hid : id ∈ gray) (hedge : E id n)
    (hn : visited n = true) :
    Inv E gray visited { s with lowLink := SccCollection.lowerLink s.discovery id s.lowLink n } done := by
  unfold SccCollection.lowerLink
  split
  case isTrue hlt =>
    rcases le_total (s.lowLink id) (s.lowLink n) with hle | hle
    · rw [min_eq_left hle, Function.update_eq_self]
      exact h
    · rw [min_eq_right hle]
      have hids := h.onPath id hid
      have hlow := h.low_le id (h.visited_of_mem hids)
      rcases (h.split n).1 hn with hns | hnd
      · obtain ⟨y, hy, hyl, hny⟩ := h.low_reach n hns
        rw [← hyl] at hle ⊢
        exact h.lower hid hy (.head hedge hny) hle
      · -- the link of an emitted node is above the discovery of `id`
        exact absurd (h.low_done n hnd id hids hlt) (by omega)
  case isFalse => exact h

/-- After the first loop the link of the node is below those of the newer nodes it leads to. -/
theorem lowerLinks (h : Inv E gray visited s done) {id : Nat} (hid : id ∈ gray) {links : List Nat}
    (hlinks : ∀ n ∈ links, E id n ∧ visited n = true) :
    ∃ lowLink, links.foldl (SccCollection.lowerLink s.discovery id) s.lowLink = lowLink ∧
      Inv E gray visited { s with lowLink := lowLink } done ∧ (∀ v, v ≠ id → lowLink v = s.lowLink v) ∧
      lowLink id ≤ s.lowLink id ∧ ∀ n ∈ links, s.discovery id < s.discovery n → lowLink id ≤ s.lowLink n := by
  induction links generalizing s with
  | nil => exact ⟨s.lowLink, rfl, h, fun _ _ => rfl, le_rfl, by simp⟩
  | cons n links ih =>
    have hn := hlinks n List.mem_cons_self
    obtain ⟨lowLink, heq, hinv, hother, hle, hlow⟩ := ih (h.lowerLink hid hn.1 hn.2)
      fun m hm => hlinks m (List.mem_cons_of_mem _ hm)
    have hkeep : ∀ v, v ≠ id → SccCollection.lowerLink s.discovery id s.lowLink n v = s.lowLink v := fun v hv => by
      unfold SccCollection.lowerLink
      split
      · rw [Function.update_of_ne hv]
      · rfl
    have hmin : SccCollection.lowerLink s.discovery id s.lowLink n id ≤ s.lowLink id ∧
        (s.discovery id < s.discovery n → SccCollection.lowerLink s.discovery id s.lowLink n id ≤ s.lowLink n) := by
      unfold SccCollection.lowerLink
      split
      case isTrue => simp
      case isFalse hlt => exact ⟨le_rfl, fun h => absurd h hlt⟩
    refine ⟨lowLink, heq, hinv, fun v hv => (hother v hv).trans (hkeep v hv), hle.trans hmin.1, fun m hm hlt => ?_⟩
    rcases List.mem_cons.1 hm with rfl | hm
    · exact hle.trans (hmin.2 hlt)
    · have hne : m ≠ id := fun he => by rw [he] at hlt; exact lt_irrefl _ hlt
      rw [← hkeep m hne]
      exact hlow m hm hlt

/-- A node that is no root stays on the stack. -/
theorem leave {id : Nat} (h : Inv E (id :: gray) visited s done) (hlinks : ∀ w, E id w → visited w = true)
    (hlow : s.lowLink id < s.discovery id) : Inv E gray visited s done := by
  refine ⟨h.disc_lt, h.sorted, h.split, h.apart, h.onStack, fun v hv => h.onPath v (List.mem_cons_of_mem _ hv),
    fun v hv hnot w hedge => ?_, h.older, fun y hy => ?_, h.low_le, h.low_reach, h.low_done, h.emitted, h.components⟩
  · by_cases hvi : v = id
    · exact hlinks w (hvi ▸ hedge)
    · exact h.black v hv (by simp [hvi, hnot]) w hedge
  · obtain ⟨x, hx, hle, hyx⟩ := h.back y hy
    rcases List.mem_cons.1 hx with rfl | hx
    · -- from the node on, go where its link leads, and from there back to the path
      obtain ⟨z, hz, hzl, hxz⟩ := h.low_reach x (h.onPath x List.mem_cons_self)
      obtain ⟨g, hg, hgz, hzg⟩ := h.back z hz
      rcases List.mem_cons.1 hg with rfl | hg
      · omega
      · exact ⟨g, hg, by omega, hyx.trans (hxz.trans hzg)⟩
    · exact ⟨x, hx, hle, hyx⟩

end Inv

/-- Both stacks have the nodes of the component on top. -/
theorem popUntil_eq {id : Nat} {a p : List Nat} (stack poStack : List Nat) (hid : id ∉ a) (hlen : p.length = a.length + 1)
    (onStack : Nat → Bool) : ∃ onStack', SccCollection.popUntil id (a ++ id :: stack) (p ++ poStack) onStack =
      some (p, stack, poStack, onStack') ∧ ∀ v, onStack' v = true ↔ onStack v = true ∧ v ∉ a ∧ v ≠ id := by
  have hupdate : ∀ (f : Nat → Bool) x v, Function.update f x false v = true ↔ f v = true ∧ v ≠ x := fun f x v => by
    by_cases hv : v = x
    · simp [hv]
    · simp [hv]
  induction a generalizing p onStack with
  | nil =>
    obtain ⟨y, rfl⟩ := List.length_eq_one_iff.1 hlen
    refine ⟨Function.update onStack id false, by simp [SccCollection.popUntil], fun v => ?_⟩
    rw [hupdate]
    simp
  | cons x a ih =>
    obtain ⟨y, p, rfl⟩ := List.exists_cons_of_length_eq_add_one hlen
    rw [List.mem_cons, not_or] at hid
    obtain ⟨onStack', hpop, hon⟩ := ih hid.2 (by simpa using hlen) (Function.update onStack x false)
    refine ⟨onStack', ?_, fun v => ?_⟩
    · simp only [List.cons_append, SccCollection.popUntil, if_neg (Ne.symm hid.1), hpop]
      rfl
    · rw [hon, hupdate, List.mem_cons]
      tauto

namespace Inv

section Root

variable {id : Nat} {a stack p : List Nat} (h : Inv E (id :: gray) visited s done)
  (hlinks : ∀ w, E id w → visited w = true) (hgray : ∀ x ∈ gray, x ∈ stack) (hstack : s.stack = a ++ id :: stack)
  (hp : p.Perm a) (hlow : ∀ x ∈ id :: a, ∀ y ∈ stack, E x y → s.discovery id ≤ s.discovery y)

include h hstack

theorem below_root {y : Nat} (hy : y ∈ stack) : s.discovery y < s.discovery id := by
  have hsorted := h.sorted
  rw [hstack, List.pairwise_append] at hsorted
  exact (List.pairwise_cons.1 hsorted.2.1).1 y hy

theorem above_root {x : Nat} (hx : x ∈ id :: a) : s.discovery id ≤ s.discovery x := by
  have hsorted := h.sorted
  rw [hstack, List.pairwise_append] at hsorted
  rcases List.mem_cons.1 hx with rfl | hx
  · exact le_rfl
  · exact (hsorted.2.2 x hx id List.mem_cons_self).le

theorem not_above {y : Nat} (hy : y ∈ stack) : y ∉ id :: a := fun hx =>
  absurd (h.below_root hstack hy) (not_lt.2 (h.above_root hstack hx))

omit h in
theorem mem_stack_iff {v : Nat} : v ∈ s.stack ↔ v ∈ id :: a ∨ v ∈ stack := by
  rw [hstack, List.mem_append, List.mem_cons, List.mem_cons]
  tauto

include hlinks hgray hlow

/-- The edges from above the root stay there, or lead to emitted nodes. -/
theorem escape {u : Nat} (hu : u ∈ id :: a) {v : Nat} (hedge : E u v) : v ∈ id :: a ∨ v ∈ done.flatten := by
  have hv : visited v = true := by
    by_cases hui : u = id
    · exact hlinks v (hui ▸ hedge)
    · refine h.black u (h.visited_of_mem ((mem_stack_iff hstack).2 (Or.inl hu))) ?_ v hedge
      rw [List.mem_cons, not_or]
      exact ⟨hui, fun hg => h.not_above hstack (hgray u hg) hu⟩
  rcases (h.split v).1 hv with hvs | hvd
  · rcases (mem_stack_iff hstack).1 hvs with hva | hvb
    · exact Or.inl hva
    · exact absurd (h.below_root hstack hvb) (not_lt.2 (hlow u hu v hvb hedge))
  · exact Or.inr hvd

theorem reach_above {u v : Nat} (hu : u ∈ id :: a) (huv : ReflTransGen E u v) : v ∈ id :: a ∨ v ∈ done.flatten :=
  mem_of_reach (S := fun v => v ∈ id :: a ∨ v ∈ done.flatten)
    (fun w hw x hedge => hw.elim (fun hw => h.escape hlinks hgray hstack hlow hw hedge)
      fun hw => Or.inr (h.components.closed w hw x hedge)) (Or.inl hu) huv

theorem isComponent_root : IsComponent E (id :: a) := by
  have hids : ∀ {u}, u ∈ id :: a → u ∈ s.stack := fun hu => (mem_stack_iff hstack).2 (Or.inl hu)
  refine isComponent_of_escape (S := fun v => v ∈ done.flatten) h.components.closed List.mem_cons_self
    (h.apart id (hids List.mem_cons_self)) (fun u hu => ?_) (fun u hu => ?_)
    fun u hu v => h.escape hlinks hgray hstack hlow hu
  · exact h.older id (hids List.mem_cons_self) u (hids hu) (h.above_root hstack hu)
  · obtain ⟨x, hx, -, hux⟩ := h.back u (hids hu)
    rcases List.mem_cons.1 hx with rfl | hx
    · exact hux
    · -- a node below the root cannot be reached
      rcases h.reach_above hlinks hgray hstack hlow hu hux with hxa | hxd
      · exact absurd hxa (h.not_above hstack (hgray x hx))
      · exact absurd hxd (h.apart x (h.onPath x (List.mem_cons_of_mem _ hx)))

include hp

/-- A root takes the nodes above it off the stack; they are its component. -/
theorem emit (poStack : List Nat) {onStack : Nat → Bool}
    (hon : ∀ v, onStack v = true ↔ s.onStack v = true ∧ v ∉ a ∧ v ≠ id) :
    Inv E gray visited { s with
      stack := stack
      poStack := poStack
      onStack := onStack
      sccOrder := s.sccOrder.modify s.scc (fun order => (order ++ (id :: p).reverse).reverse) ++ [[]]
      scc := s.scc + 1 } (done ++ [id :: p]) := by
  have hmem : ∀ v, v ∈ id :: p ↔ v ∈ id :: a := fun v => (hp.cons id).mem_iff
  have hflat : ∀ v, v ∈ (done ++ [id :: p]).flatten ↔ v ∈ done.flatten ∨ v ∈ id :: a := fun v => by
    rw [List.flatten_append, List.flatten_singleton, List.mem_append, hmem]
  have hbelow : ∀ {v}, v ∈ stack → v ∈ s.stack := fun hv => (mem_stack_iff hstack).2 (Or.inr hv)
  have hsorted : stack.Pairwise fun x y => s.discovery y < s.discovery x := by
    have hsorted := h.sorted
    rw [hstack, List.pairwise_append] at hsorted
    exact (List.pairwise_cons.1 hsorted.2.1).2
  have hnodup : (id :: p).Nodup := by
    rw [(hp.cons id).nodup_iff]
    have hall : s.stack.Nodup := h.sorted.imp fun hlt he => by rw [he] at hlt; exact lt_irrefl _ hlt
    rw [hstack, List.nodup_middle] at hall
    exact hall.sublist ((List.sublist_append_left a stack).cons_cons id)
  refine ⟨h.disc_lt, hsorted, fun v => ?_, fun v hv => ?_, fun v => ?_, hgray, fun v hv hnot w hedge => ?_,
    fun x hx y hy => h.older x (hbelow hx) y (hbelow hy), fun y hy => ?_, h.low_le, fun v hv => ?_,
    fun v hv x hx hlt => ?_, ⟨?_, ?_⟩, ?_⟩
  · rw [h.split, mem_stack_iff hstack, hflat]
    tauto
  · rw [hflat, not_or]
    exact ⟨h.apart v (hbelow hv), h.not_above hstack hv⟩
  · rw [hon, h.onStack, mem_stack_iff hstack]
    constructor
    · rintro ⟨hv | hv, hva, hvi⟩
      · exact absurd hv (by simp [hva, hvi])
      · exact hv
    · intro hv
      have hnot := h.not_above hstack hv
      rw [List.mem_cons, not_or] at hnot
      exact ⟨Or.inr hv, hnot.2, hnot.1⟩
  · by_cases hvi : v = id
    · exact hlinks w (hvi ▸ hedge)
    · exact h.black v hv (by simp [hvi, hnot]) w hedge
  · obtain ⟨x, hx, hle, hyx⟩ := h.back y (hbelow hy)
    rcases List.mem_cons.1 hx with rfl | hx
    · exact absurd (h.below_root hstack hy) (not_lt.2 hle)
    · exact ⟨x, hx, hle, hyx⟩
  · -- the link of a node below the root leads below the root
    obtain ⟨y, hy, hyl, hvy⟩ := h.low_reach v (hbelow hv)
    rcases (mem_stack_iff hstack).1 hy with hya | hyb
    · have hvlow := h.low_le v (h.visited_of_mem (hbelow hv))
      have hvid := h.below_root hstack hv
      have hyid := h.above_root hstack hya
      omega
    · exact ⟨y, hyb, hyl, hvy⟩
  · rcases (hflat v).1 hv with hvd | hva
    · exact h.low_done v hvd x (hbelow hx) hlt
    · obtain ⟨y, hy, hyl, hvy⟩ := h.low_reach v ((mem_stack_iff hstack).2 (Or.inl hva))
      rcases h.reach_above hlinks hgray hstack hlow hva hvy with hya | hyd
      · show s.discovery x < s.lowLink v
        rw [← hyl]
        exact (h.below_root hstack hx).trans_le (h.above_root hstack hya)
      · exact absurd hyd (h.apart y hy)
  · simp only [h.emitted.1, h.emitted.2]
    congr 1
    rw [List.modify_eq_take_cons_drop (by simp)]
    simp
  · simp [h.emitted.2]
  · refine h.components.concat hnodup (fun u hu => ?_) ?_ fun u hu v hedge => ?_
    · exact h.apart u ((mem_stack_iff hstack).2 (Or.inl ((hmem u).1 hu)))
    · have hc := h.isComponent_root hlinks hgray hstack hlow
      exact ⟨by simp, fun u hu v => by rw [hmem]; exact hc.mem_iff u ((hmem u).1 hu) v⟩
    · rw [hmem]
      exact h.escape hlinks hgray hstack hlow ((hmem u).1 hu) hedge

end Root

end Inv

/-! ## The walk -/

section Walk

variable (graph : Graph) (dir : Int)

def Graph.Edge (u v : Nat) : Prop := v ∈ graph.links dir u

/-- What a walk has done since it was at a state, when it has come to `id`: the new nodes are
discovered later and reached from `id`. -/
structure Grows (id : Nat) (visited : Nat → Bool) (s : SccCollection) (done : List (List Nat))
    (visited' : Nat → Bool) (s' : SccCollection) (done' : List (List Nat)) : Prop where
  mono : ∀ v, visited v = true → visited' v = true
  root : visited' id = true
  keeps : ∀ v, visited v = true → s'.discovery v = s.discovery v ∧ s'.lowLink v = s.lowLink v
  newer : ∀ v, visited' v = true → visited v = false → s.disc ≤ s'.discovery v ∧ ReflTransGen (graph.Edge dir) id v
  disc_le : s.disc < s'.disc
  emits : ∃ new, done' = done ++ new

/-- After a walk from `id`: the edges from the new part of the stack to the old one are seen
in the link of `id`. -/
structure Visits (id : Nat) (visited : Nat → Bool) (s : SccCollection) (done : List (List Nat))
    (visited' : Nat → Bool) (s' : SccCollection) (done' : List (List Nat)) : Prop
    extends Grows graph dir id visited s done visited' s' done' where
  pushes : ∃ a p, s'.stack = a ++ s.stack ∧ s'.poStack = p ++ s.poStack ∧ p.Perm a ∧
    ∀ x ∈ a, ∀ y ∈ s.stack, graph.Edge dir x y → s'.lowLink id ≤ s'.discovery y

/-- In the loop over the links of `id`, when those of `seen` have been followed: an edge to the
old stack is seen in the link of `id` or of a newer node it leads to. -/
structure Follows (id : Nat) (seen : List Nat) (visited : Nat → Bool) (s : SccCollection) (done : List (List Nat))
    (visited' : Nat → Bool) (s' : SccCollection) (done' : List (List Nat)) : Prop
    extends Grows graph dir id visited s done visited' s' done' where
  discovery : s'.discovery id = s.disc
  links : ∀ n ∈ seen, visited' n = true
  low : ∀ y ∈ seen, y ∈ s.stack → s'.lowLink id ≤ s'.discovery y
  pushes : ∃ a p, s'.stack = a ++ id :: s.stack ∧ s'.poStack = p ++ s.poStack ∧ p.Perm a ∧
    ∀ x ∈ a, ∀ y ∈ s.stack, graph.Edge dir x y →
      ∃ n ∈ seen, s'.discovery id < s'.discovery n ∧ s'.lowLink n ≤ s'.discovery y

variable {graph dir} {visited' : Nat → Bool} {s' : SccCollection} {done' : List (List Nat)} {id : Nat}
  {seen : List Nat}

variable (graph dir done) in
theorem follows_preVisit (hid : visited id = false) :
    Follows graph dir id [] visited s done (Function.update visited id true) (s.preVisit id) done := by
  have hne : ∀ {v}, visited v = true → v ≠ id := fun hv he => by rw [he, hid] at hv; cases hv
  refine ⟨⟨fun v hv => ?_, by simp, fun v hv => ?_, fun v hv hnew => ?_, Nat.lt_succ_self _, ⟨[], by simp⟩⟩,
    by simp [SccCollection.preVisit], by simp, by simp, ⟨[], [], rfl, rfl, .refl _, by simp⟩⟩
  · rw [Function.update_of_ne (hne hv)]
    exact hv
  · exact ⟨Function.update_of_ne (hne hv) _ _, Function.update_of_ne (hne hv) _ _⟩
  · obtain rfl : v = id := by
      by_contra hvi
      rw [Function.update_of_ne hvi, hnew] at hv
      cases hv
    exact ⟨by simp [SccCollection.preVisit], .refl⟩

theorem Follows.lateVisit (hinv : Inv (graph.Edge dir) (id :: gray) visited' s' done') (hid : visited id = false)
    (hf : Follows graph dir id seen visited s done visited' s' done') {n : Nat} (hn : visited' n = true) :
    Follows graph dir id (seen ++ [n]) visited s done visited' (s'.lateVisit id n) done' := by
  have hdisc : (s'.lateVisit id n).discovery = s'.discovery := by
    unfold SccCollection.lateVisit
    split <;> rfl
  have hlow : ∀ v, v ≠ id → (s'.lateVisit id n).lowLink v = s'.lowLink v := fun v hv => by
    unfold SccCollection.lateVisit
    split
    · exact Function.update_of_ne hv _ _
    · rfl
  have hle : (s'.lateVisit id n).lowLink id ≤ s'.lowLink id := by
    unfold SccCollection.lateVisit
    split <;> simp
  have hstacks : (s'.lateVisit id n).stack = s'.stack ∧ (s'.lateVisit id n).poStack = s'.poStack ∧
      (s'.lateVisit id n).disc = s'.disc := by
    unfold SccCollection.lateVisit
    split <;> exact ⟨rfl, rfl, rfl⟩
  obtain ⟨a, p, hstack, hpo, hperm, hesc⟩ := hf.pushes
  refine ⟨⟨hf.mono, hf.root, fun v hv => ?_, ?_, ?_, hf.emits⟩, ?_, ?_, ?_, ?_⟩
  · have hvi : v ≠ id := fun he => by rw [he, hid] at hv; cases hv
    rw [hdisc, hlow v hvi]
    exact hf.keeps v hv
  · rw [hdisc]
    exact hf.newer
  · rw [hstacks.2.2]
    exact hf.disc_le
  · rw [hdisc]
    exact hf.discovery
  · intro m hm
    rcases List.mem_append.1 hm with hm | hm
    · exact hf.links m hm
    · exact List.mem_singleton.1 hm ▸ hn
  · intro y hy hys
    rw [hdisc]
    rcases List.mem_append.1 hy with hy | hy
    · exact hle.trans (hf.low y hy hys)
    · obtain rfl : y = n := List.mem_singleton.1 hy
      have hon : s'.onStack y = true := by
        rw [hinv.onStack, hstack, List.mem_append]
        exact Or.inr (List.mem_cons_of_mem _ hys)
      simp [SccCollection.lateVisit, hon]
  · refine ⟨a, p, hstacks.1.trans hstack, hstacks.2.1.trans hpo, hperm, fun x hx y hy hedge => ?_⟩
    obtain ⟨m, hm, hlt, hml⟩ := hesc x hx y hy hedge
    have hmi : m ≠ id := fun he => by rw [he] at hlt; exact lt_irrefl _ hlt
    exact ⟨m, List.mem_append_left _ hm, by rw [hdisc]; exact hlt, by rw [hdisc, hlow m hmi]; exact hml⟩

/-- A link to a new node is followed. -/
theorem Follows.visit (hf : Follows graph dir id seen visited s done visited' s' done')
    (hinv : Inv (graph.Edge dir) (id :: gray) visited' s' done') {n : Nat} (hedge : graph.Edge dir id n)
    {visited'' : Nat → Bool} {s'' : SccCollection} {done'' : List (List Nat)} (hn : visited' n = false)
    (hv : Visits graph dir n visited' s' done' visited'' s'' done'') :
    Follows graph dir id (seen ++ [n]) visited s done visited'' s'' done'' := by
  obtain ⟨a, p, hstack, hpo, hperm, hesc⟩ := hf.pushes
  obtain ⟨b, q, hstack', hpo', hperm', hesc'⟩ := hv.pushes
  obtain ⟨new, hnew⟩ := hf.emits
  obtain ⟨new', hnew'⟩ := hv.emits
  have hid := hv.keeps id hf.root
  have hold : ∀ y ∈ s.stack, s''.discovery y = s'.discovery y := fun y hy =>
    (hv.keeps y (hinv.visited_of_mem (by rw [hstack]; simp [hy]))).1
  refine ⟨⟨fun v h => hv.mono v (hf.mono v h), hv.mono id hf.root, fun v h => ?_, fun v h h' => ?_,
    hf.disc_le.trans hv.disc_le, ⟨new ++ new', by rw [hnew', hnew, List.append_assoc]⟩⟩, by rw [hid.1, hf.discovery],
    fun m hm => ?_, fun y hy hys => ?_, ?_⟩
  · have hkeep := hv.keeps v (hf.mono v h)
    rw [hkeep.1, hkeep.2]
    exact hf.keeps v h
  · cases hv' : visited' v with
    | true =>
      have := hf.newer v hv' h'
      rw [(hv.keeps v hv').1]
      exact this
    | false =>
      have := hv.newer v h hv'
      exact ⟨hf.disc_le.le.trans this.1, .head hedge this.2⟩
  · rcases List.mem_append.1 hm with hm | hm
    · exact hv.mono m (hf.links m hm)
    · exact List.mem_singleton.1 hm ▸ hv.root
  · rw [hid.2, hold y hys]
    rcases List.mem_append.1 hy with hy | hy
    · exact hf.low y hy hys
    · -- a node of the old stack was not new
      obtain rfl : y = n := List.mem_singleton.1 hy
      rw [hinv.visited_of_mem (by rw [hstack]; simp [hys])] at hn
      cases hn
  · refine ⟨b ++ a, q ++ p, by rw [hstack', hstack, List.append_assoc], by rw [hpo', hpo, List.append_assoc],
      hperm'.append hperm, fun x hx y hy hxy => ?_⟩
    rcases List.mem_append.1 hx with hx | hx
    · refine ⟨n, by simp, ?_, hesc' x hx y (by rw [hstack]; simp [hy]) hxy⟩
      have hroot := hinv.disc_lt id hf.root
      have hnd := (hv.newer n hv.root hn).1
      rw [hid.1]
      omega
    · obtain ⟨m, hm, hlt, hml⟩ := hesc x hx y hy hxy
      have hkeep := hv.keeps m (hf.links m hm)
      exact ⟨m, List.mem_append_left _ hm, by rw [hid.1, hkeep.1]; exact hlt, by rw [hkeep.2, hold y hy]; exact hml⟩

/-- Finishing a node whose links have all been followed. -/
theorem Follows.postVisit (h : Inv (graph.Edge dir) gray visited s done) (hid : visited id = false)
    (hinv : Inv (graph.Edge dir) (id :: gray) visited' s' done')
    (hf : Follows graph dir id (graph.links dir id) visited s done visited' s' done') :
    ∃ s'' done'', SccCollection.postVisit (graph.links dir id) id s' = some s'' ∧
      Inv (graph.Edge dir) gray visited' s'' done'' ∧ Visits graph dir id visited s done visited' s'' done'' := by
  obtain ⟨a, p, hstack, hpo, hperm, hesc⟩ := hf.pushes
  obtain ⟨new, hnew⟩ := hf.emits
  obtain ⟨lowLink, hfold, hinv', hother, hle, hlinks⟩ := hinv.lowerLinks List.mem_cons_self
    fun n hn => ⟨hn, hf.links n hn⟩
  have hlow : ∀ x ∈ id :: a, ∀ y ∈ s.stack, graph.Edge dir x y → lowLink id ≤ s'.discovery y := by
    intro x hx y hy hedge
    rcases List.mem_cons.1 hx with rfl | hx
    · exact hle.trans (hf.low y hedge hy)
    · obtain ⟨n, hn, hlt, hnl⟩ := hesc x hx y hy hedge
      exact (hlinks n hn hlt).trans hnl
  have hkeeps : ∀ v, visited v = true → s'.discovery v = s.discovery v ∧ lowLink v = s.lowLink v := fun v hv => by
    have hvi : v ≠ id := fun he => by rw [he, hid] at hv; cases hv
    rw [hother v hvi]
    exact hf.keeps v hv
  have hvis : ∀ w, graph.Edge dir id w → visited' w = true := hf.links
  unfold SccCollection.postVisit
  simp only [hfold, Option.pure_def, Option.bind_eq_bind]
  by_cases hroot : s'.discovery id = lowLink id
  · rw [if_pos hroot]
    have hnotin : id ∉ a := fun hmem => by
      have hsorted := hinv.sorted
      rw [hstack, List.pairwise_append] at hsorted
      exact lt_irrefl _ (hsorted.2.2 id hmem id List.mem_cons_self)
    obtain ⟨onStack, hpop, hon⟩ := popUntil_eq (p := id :: p) s.stack s.poStack hnotin
      (by rw [List.length_cons, hperm.length_eq]) s'.onStack
    rw [hstack, hpo]
    rw [List.cons_append] at hpop
    rw [hpop, Option.bind_some]
    refine ⟨_, done' ++ [id :: p], rfl, ?_, ⟨hf.mono, hf.root, hkeeps, hf.newer, hf.disc_le,
      ⟨new ++ [id :: p], by rw [hnew, List.append_assoc]⟩⟩, ⟨[], [], rfl, rfl, .refl _, by simp⟩⟩
    exact hinv'.emit hvis h.onPath hstack hperm (by rw [← hroot] at hlow; exact hlow) s.poStack hon
  · rw [if_neg hroot]
    have hlt : lowLink id < s'.discovery id := lt_of_le_of_ne (hinv'.low_le id hf.root) (Ne.symm hroot)
    have hinv'' := hinv'.leave hvis hlt
    refine ⟨_, done', rfl, ⟨hinv''.disc_lt, hinv''.sorted, hinv''.split, hinv''.apart, hinv''.onStack, hinv''.onPath,
        hinv''.black, hinv''.older, hinv''.back, hinv''.low_le, hinv''.low_reach, hinv''.low_done, hinv''.emitted,
        hinv''.components⟩, ⟨hf.mono, hf.root, hkeeps, hf.newer, hf.disc_le, ⟨new, hnew⟩⟩,
      ⟨a ++ [id], id :: p, by rw [hstack, List.append_assoc]; rfl, by rw [hpo]; rfl, ?_, fun x hx => ?_⟩⟩
    · exact (hperm.cons id).trans (List.perm_append_singleton id a).symm
    · rw [List.mem_append, List.mem_singleton, or_comm, ← List.mem_cons] at hx
      exact hlow x hx

/-! ## Whole walks -/

variable (graph) in
/-- The nodes that a walk can still come to. -/
def unvisited (visited : Nat → Bool) : Nat := (List.range graph.count).countP fun v => !visited v

theorem unvisited_lt (hid : id < graph.count) (hnot : visited id = false)
    (h : ∀ v, visited v = true → visited' v = true) (hin : visited' id = true) :
    unvisited graph visited' < unvisited graph visited := by
  obtain ⟨l, r, hsplit⟩ := List.append_of_mem (List.mem_range.2 hid)
  have hmono : ∀ l : List Nat, l.countP (fun v => !visited' v) ≤ l.countP (fun v => !visited v) := fun l =>
    List.countP_mono_left fun v _ hv => by
      cases hvis : visited v with
      | false => rfl
      | true => simp [h v hvis] at hv
  unfold unvisited
  rw [hsplit, List.countP_append, List.countP_append, List.countP_cons_of_neg (by simp [hin]),
    List.countP_cons_of_pos (by simp [hnot])]
  have hl := hmono l
  have hr := hmono r
  omega

/-- A walk from a node that has not been visited finds the components below it. -/
theorem walkHelper_spec {fuel : Nat} (h : Inv (graph.Edge dir) gray visited s done) (hnot : visited id = false)
    (hid : id < graph.count) (hreach : ∀ x ∈ gray, ReflTransGen (graph.Edge dir) x id)
    (hfuel : unvisited graph visited ≤ fuel) :
    ∃ visited' s' done', walkHelper graph (sccCollection graph dir) dir fuel id (visited, s) = some (visited', s') ∧
      Inv (graph.Edge dir) gray visited' s' done' ∧ Visits graph dir id visited s done visited' s' done' := by
  induction fuel generalizing id gray visited s done with
  | zero =>
    have hless : unvisited graph (fun _ => true) < unvisited graph visited :=
      unvisited_lt hid hnot (fun _ _ => rfl) rfl
    omega
  | succ fuel ih =>
    have hloop : ∀ rest seen visited' s' done', graph.links dir id = seen ++ rest →
        Inv (graph.Edge dir) (id :: gray) visited' s' done' →
        Follows graph dir id seen visited s done visited' s' done' →
        ∃ visited'' s'' done'', rest.foldlM (fun st n => if !st.1 n
            then walkHelper graph (sccCollection graph dir) dir fuel n st
            else some (st.1, (sccCollection graph dir).lateVisit id n st.2)) (visited', s') =
              some (visited'', s'') ∧
          Inv (graph.Edge dir) (id :: gray) visited'' s'' done'' ∧
          Follows graph dir id (graph.links dir id) visited s done visited'' s'' done'' := by
      intro rest
      induction rest with
      | nil =>
        intro seen visited' s' done' hlinks hinv hf
        rw [List.append_nil] at hlinks
        exact ⟨visited', s', done', rfl, hinv, hlinks ▸ hf⟩
      | cons n rest ihrest =>
        intro seen visited' s' done' hlinks hinv hf
        have hn : n ∈ graph.links dir id := by rw [hlinks]; simp
        have hrest : graph.links dir id = (seen ++ [n]) ++ rest := by rw [hlinks, List.append_assoc]; rfl
        rw [List.foldlM_cons]
        cases hvn : visited' n with
        | true =>
          simp only [hvn, Bool.not_true, Bool.false_eq_true, if_false, Option.bind_eq_bind, Option.bind_some]
          exact ihrest (seen ++ [n]) visited' _ done' hrest (hinv.lateVisit List.mem_cons_self hn)
            (hf.lateVisit hinv hnot hvn)
        | false =>
          have hreach' : ∀ x ∈ id :: gray, ReflTransGen (graph.Edge dir) x n := fun x hx => by
            rcases List.mem_cons.1 hx with rfl | hx
            · exact .single hn
            · exact (hreach x hx).tail hn
          have hless := unvisited_lt hid hnot hf.mono hf.root
          obtain ⟨visited'', s'', done'', hwalk, hinv'', hv⟩ :=
            ih hinv hvn (graph.links_lt dir id hid n hn) hreach' (by omega)
          simp only [hvn, Bool.not_false, if_true, hwalk, Option.bind_eq_bind, Option.bind_some]
          exact ihrest (seen ++ [n]) visited'' s'' done'' hrest hinv'' (hf.visit hinv hn hvn hv)
    obtain ⟨visited', s', done', hfold, hinv, hf⟩ := hloop (graph.links dir id) [] _ _ done rfl
      (h.preVisit hnot hreach) (follows_preVisit done graph dir hnot)
    obtain ⟨s'', done'', hpost, hinv', hv⟩ := hf.postVisit h hnot hinv
    refine ⟨visited', s'', done'', ?_, hinv', hv⟩
    rw [walkHelper]
    simp only [Option.bind_eq_bind, Option.pure_def]
    rw [show (sccCollection graph dir).preVisit id s = s.preVisit id from rfl, hfold, Option.bind_some]
    change (SccCollection.postVisit (graph.links dir id) id s').bind _ = _
    rw [hpost, Option.bind_some]

end Walk

end Egalito.Analysis
