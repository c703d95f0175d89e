import Egalito.Analysis.Postorder
/-!
# Reachability with pruning

The second `isReachable` of `analysis/walker.h` filters the list of a whole
depth-first search: after a pruned node it skips to the end of the subtree. The
destination is in that list once, under its parent in the search tree, so the
answer is about one path only, the first one in the order of the links.
-/

open Relation Egalito.Lib

namespace Egalito.Analysis

section Source

variable (prune : Nat → Nat → Nat → Bool) (src dest : Nat)

/-- The loop over the list; the third argument is `pruneRoot` while `pruning`. -/
def searchOrder : List Nat → Option Nat → Bool
  | [], _ => false
  | n :: ns, some pruneRoot => if n = pruneRoot then searchOrder ns none else searchOrder ns (some pruneRoot)
  | n :: ns, none =>
    if n = dest then true
    else if prune n src dest then searchOrder ns (some n)
    else searchOrder ns none

/-- `isReachable` with pruning. -/
def isReachablePruned (graph : Graph) (fuel : Nat) : Option Bool := do
  let order ← genOrder graph 1 .prePostorder false fuel src
  return searchOrder prune src dest order none

end Source

/-! ## The first path -/

section FirstPath

variable (graph : Graph) (dir : Int) (dest : Nat)

/-- A path to the destination past the nodes `avoid`. -/
def ReachesPast (avoid : List Nat) (id : Nat) : Prop :=
  id ∉ avoid ∧ ReflTransGen (fun u v => graph.Edge dir u v ∧ v ∉ avoid) id dest

/-- The simple path that takes, at each node, the first link from which the destination can still be reached past
the nodes that the path already has. -/
inductive FirstPath : List Nat → Nat → List Nat → Prop
  | done {avoid : List Nat} : FirstPath avoid dest [dest]
  | step {avoid before after p : List Nat} {u v : Nat} : u ≠ dest → graph.links dir u = before ++ v :: after →
      v ∉ u :: avoid → (∀ w ∈ before, ¬ ReachesPast graph dir dest (u :: avoid) w) →
      FirstPath (u :: avoid) v p → FirstPath avoid u (u :: p)

variable {graph dir dest}

theorem ReachesPast.head {avoid : List Nat} {u v : Nat} (hu : u ∉ avoid) (hedge : graph.Edge dir u v)
    (h : ReachesPast graph dir dest (u :: avoid) v) : ReachesPast graph dir dest avoid u := by
  refine ⟨hu, .head ⟨hedge, fun hv => h.1 (List.mem_cons_of_mem u hv)⟩ ?_⟩
  have hless : ∀ a b, graph.Edge dir a b ∧ b ∉ u :: avoid → graph.Edge dir a b ∧ b ∉ avoid := fun _ b hstep =>
    ⟨hstep.1, fun hb => hstep.2 (List.mem_cons_of_mem u hb)⟩
  exact ReflTransGen.mono hless v dest h.2

theorem FirstPath.reachesPast {avoid p : List Nat} {u : Nat} (h : FirstPath graph dir dest avoid u p) (hu : u ∉ avoid) :
    ReachesPast graph dir dest avoid u := by
  induction h with
  | done => exact ⟨hu, .refl⟩
  | step _ hlinks hv _ _ ih =>
    refine (ih hv).head hu ?_
    rw [Graph.Edge, hlinks]
    simp

/-- There is one first path at most. -/
theorem FirstPath.unique {avoid p p' : List Nat} {u : Nat} (h : FirstPath graph dir dest avoid u p)
    (h' : FirstPath graph dir dest avoid u p') : p = p' := by
  induction h generalizing p' with
  | done =>
    cases h' with
    | done => rfl
    | step hne => exact absurd rfl hne
  | step hne hlinks hv hbefore hrest ih =>
    cases h' with
    | done => exact absurd rfl hne
    | step _ hlinks' hv' hbefore' hrest' =>
      -- both take the first link that reaches the destination
      rcases List.append_eq_append_iff.1 (hlinks.symm.trans hlinks') with ⟨mid, rfl, hmid⟩ | ⟨mid, rfl, hmid⟩
      · cases mid with
        | nil =>
          rw [List.nil_append, List.cons.injEq] at hmid
          obtain ⟨rfl, rfl⟩ := hmid
          rw [ih hrest']
        | cons w mid =>
          rw [List.cons_append, List.cons.injEq] at hmid
          obtain ⟨rfl, rfl⟩ := hmid
          exact absurd (hrest.reachesPast hv) (hbefore' _ (by simp))
      · cases mid with
        | nil =>
          rw [List.nil_append, List.cons.injEq] at hmid
          obtain ⟨rfl, rfl⟩ := hmid
          rw [ih hrest']
        | cons w mid =>
          rw [List.cons_append, List.cons.injEq] at hmid
          obtain ⟨rfl, rfl⟩ := hmid
          exact absurd (hrest'.reachesPast hv') (hbefore _ (by simp))

theorem FirstPath.pathTo {avoid p q : List Nat} {u src : Nat} (h : FirstPath graph dir dest avoid u p)
    (hq : PathTo (graph.Edge dir) src (u :: q) u) : PathTo (graph.Edge dir) src (p.reverse ++ q) dest := by
  induction h generalizing q with
  | done => exact hq
  | step _ hlinks _ _ _ ih =>
    rw [List.reverse_cons, List.append_assoc]
    refine ih (hq.step ?_)
    rw [Graph.Edge, hlinks]
    simp

end FirstPath

/-! ## The loop as a collector -/

/-- Where the loop stands. -/
inductive Search
  | searching
  | pruning (root : Nat)
  | found
deriving DecidableEq

section Scan

variable (prune : Nat → Bool) (dest : Nat)

def Search.next : Search → Nat → Search
  | .found, _ => .found
  | .pruning root, n => if n = root then .searching else .pruning root
  | .searching, n => if n = dest then .found else if prune n then .pruning n else .searching

def searchCollector : Collector Search where
  reset _ := .searching
  tick s := s
  preVisit id s := s.next prune dest id
  postVisit id s := some (s.next prune dest id)
  lateVisit _ _ s := s
  finish s := s

theorem searchOrder_eq (prune : Nat → Nat → Nat → Bool) (src dest : Nat) (l : List Nat) (root : Option Nat) :
    searchOrder prune src dest l root = true ↔
      l.foldl (Search.next (prune · src dest) dest) (root.elim .searching .pruning) = .found := by
  have hfound : ∀ l : List Nat, l.foldl (Search.next (prune · src dest) dest) .found = .found := by
    intro l
    induction l with
    | nil => rfl
    | cons n l ih => exact ih
  induction l generalizing root with
  | nil => cases root <;> simp [searchOrder]
  | cons n l ih =>
    cases root with
    | some root =>
      rw [searchOrder, List.foldl_cons]
      simp only [Option.elim_some, Search.next]
      split
      · exact ih none
      · exact ih (some root)
    | none =>
      rw [searchOrder, List.foldl_cons]
      simp only [Option.elim_none, Search.next]
      split
      · simp [hfound]
      · split
        · exact ih (some n)
        · exact ih none

end Scan

/-! ## The search tree -/

section Tree

variable {graph : Graph} {dir : Int} {prune : Nat → Bool} {dest : Nat}

/-- During a walk, `avoid` are the nodes that are not finished. -/
structure Explored (graph : Graph) (dir : Int) (visited : Nat → Bool) (avoid : List Nat) : Prop where
  active : ∀ v ∈ avoid, visited v = true
  closed : ∀ v, visited v = true → v ∉ avoid → ∀ w, graph.Edge dir v w → visited w = true

theorem Explored.enter {visited : Nat → Bool} {avoid : List Nat} (h : Explored graph dir visited avoid) (id : Nat) :
    Explored graph dir (Function.update visited id true) (id :: avoid) := by
  have hmono : ∀ v, visited v = true → Function.update visited id true v = true := fun v hv => by
    by_cases hvi : v = id
    · rw [hvi, Function.update_self]
    · rwa [Function.update_of_ne hvi]
  refine ⟨List.forall_mem_cons.2 ⟨Function.update_self .., fun v hv => hmono v (h.active v hv)⟩,
    fun v hv hva w hedge => hmono w ?_⟩
  have hvi : v ≠ id := fun he => hva (he ▸ List.mem_cons_self)
  rw [Function.update_of_ne hvi] at hv
  exact h.closed v hv (fun hmem => hva (List.mem_cons_of_mem id hmem)) w hedge

theorem Explored.spread {visited visited' : Nat → Bool} {avoid : List Nat} (h : Explored graph dir visited avoid)
    (hs : Spreads graph dir visited visited') : Explored graph dir visited' avoid := by
  refine ⟨fun v hv => hs.mono v (h.active v hv), fun v hv hva w hedge => ?_⟩
  cases hv₀ : visited v with
  | true => exact hs.mono w (h.closed v hv₀ hva w hedge)
  | false => exact hs.closed v hv₀ hv w hedge

/-- From a finished node, an unvisited destination is behind the nodes that are not finished. -/
theorem Explored.not_reachesPast {visited : Nat → Bool} {avoid : List Nat} (h : Explored graph dir visited avoid)
    (hdest : visited dest = false) {w : Nat} (hw : visited w = true) : ¬ ReachesPast graph dir dest avoid w := by
  rintro ⟨hwa, hreach⟩
  have hall : ∀ v, ReflTransGen (fun u v => graph.Edge dir u v ∧ v ∉ avoid) w v → visited v = true ∧ v ∉ avoid := by
    intro v hv
    induction hv with
    | refl => exact ⟨hw, hwa⟩
    | tail _ hstep ih => exact ⟨h.closed _ ih.1 ih.2 _ hstep.1, hstep.2⟩
  exact absurd (hdest.symm.trans (hall dest hreach).1) Bool.false_ne_true

variable (prune dest)

/-- What the loop has found at the end of the path to the destination. -/
def outcome (p : List Nat) : Search := if p.all fun v => v = dest || !prune v then .found else .searching

/-- What a part of a walk without the destination does to the loop. -/
structure Scans (st st' : (Nat → Bool) × Search) : Prop where
  found : st.2 = .found → st'.2 = .found
  pruning : ∀ root, st.2 = .pruning root → st.1 root = true → st'.2 = .pruning root
  searching : st.1 dest = true ∨ st'.1 dest = false → st.2 = .searching → st'.2 = .searching

variable {prune dest}

theorem outcome_cons {u : Nat} (hu : u ≠ dest) (p : List Nat) :
    outcome prune dest (u :: p) = if prune u then .searching else outcome prune dest p := by
  cases hp : prune u <;> simp [outcome, hu, hp]

theorem outcome_cases (p : List Nat) : outcome prune dest p = .found ∨ outcome prune dest p = .searching := by
  rw [outcome]
  split
  · exact .inl rfl
  · exact .inr rfl

theorem Scans.refl (st : (Nat → Bool) × Search) : Scans dest st st :=
  ⟨fun h => h, fun _ h _ => h, fun _ h => h⟩

theorem Scans.trans {st st₁ st' : (Nat → Bool) × Search} (hmono : ∀ v, st.1 v = true → st₁.1 v = true)
    (hmono' : ∀ v, st₁.1 v = true → st'.1 v = true) (h : Scans dest st st₁) (h' : Scans dest st₁ st') :
    Scans dest st st' := by
  refine ⟨fun hs => h'.found (h.found hs), fun root hs hroot => h'.pruning root (h.pruning root hs hroot) (hmono root hroot),
    fun hd hs => h'.searching ?_ (h.searching ?_ hs)⟩
  · exact hd.imp_left (hmono dest)
  · refine hd.imp_right fun hd => ?_
    cases hd₁ : st₁.1 dest with
    | false => rfl
    | true => rw [hmono' dest hd₁] at hd; cases hd

/-- A node around its links. -/
theorem Scans.node {id : Nat} {visited : Nat → Bool} {s : Search} {st : (Nat → Bool) × Search}
    (hid : visited id = false) (hid' : st.1 id = true)
    (h : Scans dest (Function.update visited id true, s.next prune dest id) st) :
    Scans dest (visited, s) (st.1, st.2.next prune dest id) := by
  refine ⟨fun hs => ?_, fun root hs hroot => ?_, fun hd hs => ?_⟩
  all_goals dsimp only at hs; subst hs
  · rw [h.found rfl]
    rfl
  · have hne : id ≠ root := fun he => Bool.false_ne_true ((he ▸ hid).symm.trans hroot)
    have hkeep := h.pruning root (if_neg hne) ((Function.update_of_ne hne.symm _ _).trans hroot)
    rw [hkeep]
    exact if_neg hne
  · have hne : id ≠ dest := by
      rintro rfl
      rcases hd with hd | hd
      · exact absurd (hid.symm.trans hd) Bool.false_ne_true
      · exact absurd (hid'.symm.trans hd) Bool.false_ne_true.symm
    cases hp : prune id with
    | true =>
      have hstart : Search.searching.next prune dest id = .pruning id := by simp [Search.next, hne, hp]
      rw [h.pruning id hstart (Function.update_self ..)]
      exact if_pos rfl
    | false =>
      have hstart : Search.searching.next prune dest id = .searching := by simp [Search.next, hne, hp]
      rw [h.searching (hd.imp_left (Function.update_of_ne hne.symm _ _).trans) hstart, hstart]

/-- The first link of a node that leads to the destination, and the path from there. -/
def FirstLink (graph : Graph) (dir : Int) (dest : Nat) (avoid : List Nat) (u : Nat) (p : List Nat) : Prop :=
  ∃ before v after, graph.links dir u = before ++ v :: after ∧ v ∉ u :: avoid ∧
    (∀ w ∈ before, ¬ ReachesPast graph dir dest (u :: avoid) w) ∧ FirstPath graph dir dest (u :: avoid) v p

/-- A walk that comes to the destination decides by the first path to it. -/
theorem walkHelper_search {fuel id : Nat} {st st' : (Nat → Bool) × Search}
    (h : walkHelper graph (searchCollector prune dest) dir fuel id st = some st') (hid : st.1 id = false)
    {avoid : List Nat} (havoid : Explored graph dir st.1 avoid) :
    Scans dest st st' ∧ (st.1 dest = false → st'.1 dest = true →
      ∃ p, FirstPath graph dir dest avoid id p ∧ (st.2 = .searching → st'.2 = outcome prune dest p)) := by
  refine (walkHelper_spreads_rule (P := fun id st st' => ∀ avoid, st.1 id = false → Explored graph dir st.1 avoid →
      Scans dest st st' ∧ (st.1 dest = false → st'.1 dest = true →
        ∃ p, FirstPath graph dir dest avoid id p ∧ (st.2 = .searching → st'.2 = outcome prune dest p)))
    (Q := fun id ns st st' => ∀ avoid before, graph.links dir id = before ++ ns → (∀ w ∈ before, st.1 w = true) →
      Explored graph dir st.1 (id :: avoid) → Scans dest st st' ∧ (st.1 dest = false → st'.1 dest = true →
        ∃ p, FirstLink graph dir dest avoid id p ∧ (st.2 = .searching → st'.2 = outcome prune dest p)))
    ?_ ?_ ?_ ?_ h).2 avoid hid havoid
  · rintro id visited s ⟨visited', s₁⟩ s' hcovers hq ⟨⟩ avoid hid havoid
    obtain ⟨hscans, hreach⟩ := hq avoid [] rfl (by simp) (havoid.enter id)
    have hid' := hcovers.mono id (Function.update_self ..)
    refine ⟨hscans.node hid hid', fun hdest hdest' => ?_⟩
    by_cases hne : id = dest
    · subst hne
      refine ⟨[id], .done, fun hs => ?_⟩
      dsimp only at hs
      subst hs
      obtain rfl : s₁ = .found := hscans.found (if_pos rfl)
      simp [outcome, Search.next]
    · obtain ⟨p, ⟨before, v, after, hlinks, hv, hbefore, hpath⟩, houtcome⟩ := hreach
        ((Function.update_of_ne (Ne.symm hne) _ _).trans hdest) hdest'
      refine ⟨id :: p, .step hne hlinks hv hbefore hpath, fun hs => ?_⟩
      dsimp only at hs
      subst hs
      rw [outcome_cons hne]
      cases hp : prune id with
      | true =>
        have hstart : Search.searching.next prune dest id = .pruning id := by simp [Search.next, hne, hp]
        obtain rfl : s₁ = .pruning id := hscans.pruning id hstart (Function.update_self ..)
        simp [Search.next]
      | false =>
        have hstart : Search.searching.next prune dest id = .searching := by simp [Search.next, hne, hp]
        obtain rfl : s₁ = outcome prune dest p := houtcome hstart
        rcases outcome_cases p with hout | hout
        · rw [hout]
          rfl
        · rw [hout, hstart]
          rfl
  · intro id st avoid before hlinks hbefore havoid
    refine ⟨.refl st, fun hd hd' => ?_⟩
    exact absurd (hd.symm.trans hd') Bool.false_ne_true
  · intro id n ns st st' hn hq avoid before hlinks hbefore havoid
    refine hq avoid (before ++ [n]) (by simp [hlinks]) ?_ havoid
    simpa [or_imp, forall_and] using ⟨hbefore, hn⟩
  · intro id n ns st st₁ st' hn hspreads hn₁ hspreads' hp hq avoid before hlinks hbefore havoid
    obtain ⟨hscans, hreach⟩ := hp (id :: avoid) hn havoid
    have hbefore₁ : ∀ w ∈ before ++ [n], st₁.1 w = true := by
      simpa [or_imp, forall_and] using ⟨fun w hw => hspreads.mono w (hbefore w hw), hn₁⟩
    obtain ⟨hscans', hreach'⟩ := hq avoid (before ++ [n]) (by simp [hlinks]) hbefore₁ (havoid.spread hspreads)
    refine ⟨hscans.trans hspreads.mono hspreads'.mono hscans', fun hdest hdest' => ?_⟩
    cases hdest₁ : st₁.1 dest with
    | true =>
      obtain ⟨p, hpath, houtcome⟩ := hreach hdest hdest₁
      have hactive : n ∉ id :: avoid := fun hmem => Bool.false_ne_true (hn.symm.trans (havoid.active n hmem))
      refine ⟨p, ⟨before, n, ns, hlinks, hactive, fun w hw => havoid.not_reachesPast hdest (hbefore w hw), hpath⟩,
        fun hs => ?_⟩
      rcases outcome_cases p with hout | hout
      · rw [hout, hscans'.found ((houtcome hs).trans hout)]
      · rw [hout, hscans'.searching (.inl hdest₁) ((houtcome hs).trans hout)]
    | false =>
      obtain ⟨p, hpath, houtcome⟩ := hreach' hdest₁ hdest'
      exact ⟨p, hpath, fun hs => houtcome (hscans.searching (.inr hdest₁) hs)⟩

end Tree

/-! ## The answer -/

/-- A path on which no node other than the destination is pruned. -/
def Unpruned (prune : Nat → Nat → Nat → Bool) (src dest : Nat) (p : List Nat) : Prop :=
  ∀ v ∈ p, v ≠ dest → prune v src dest = false

section Answer

variable (prune : Nat → Nat → Nat → Bool) (src dest : Nat) (graph : Graph)

theorem outcome_eq_found_iff (p : List Nat) : outcome (prune · src dest) dest p = .found ↔ Unpruned prune src dest p := by
  have hall : (p.all fun v => v = dest || !prune v src dest) = true ↔ Unpruned prune src dest p := by
    simp [Unpruned, imp_iff_not_or]
  rw [outcome, ← hall]
  split <;> simp [*]

/-- The loop over the list of the walk. -/
theorem isReachablePruned_eq {fuel : Nat} (hsrc : src < graph.count) (hfuel : graph.count ≤ fuel) :
    ∃ visited s, walkHelper graph (searchCollector (prune · src dest) dest) 1 fuel src (fun _ => false, .searching) =
        some (visited, s) ∧ isReachablePruned prune src dest graph fuel = some (decide (s = .found)) := by
  obtain ⟨visited, l, hrun, hgen⟩ := genOrder_eq graph 1 .prePostorder false hsrc hfuel
  have hsim : ∃ s, walkHelper graph (searchCollector (prune · src dest) dest) 1 fuel src (fun _ => false, .searching) =
      some (visited, s) ∧ s = l.foldl (Search.next (prune · src dest) dest) .searching := by
    refine walkHelper_simulation (fun (l : List Nat) (s : Search) =>
      s = l.foldl (Search.next (prune · src dest) dest) .searching) (fun id l s h => ?_) (fun id n l s h => h)
      (fun id l s l' h hpost => ?_) rfl hrun
    · simp [searchCollector, listCollector, VisitType.preVisit, h]
    · cases hpost
      refine ⟨_, rfl, ?_⟩
      simp [VisitType.postVisit, h]
  obtain ⟨s, hs, rfl⟩ := hsim
  refine ⟨visited, _, hs, ?_⟩
  have hanswer := searchOrder_eq prune src dest l none
  simp only [isReachablePruned, hgen, Option.bind_eq_bind, Option.bind_some, Bool.false_eq_true, if_false]
  rw [Option.elim_none] at hanswer
  simp [← hanswer]

theorem isReachablePruned_iff {fuel : Nat} (hsrc : src < graph.count) (hfuel : graph.count ≤ fuel) :
    ∃ answer, isReachablePruned prune src dest graph fuel = some answer ∧
      (answer = true ↔ ∃ p, FirstPath graph 1 dest [] src p ∧ Unpruned prune src dest p) := by
  obtain ⟨visited, s, hrun, hanswer⟩ := isReachablePruned_eq prune src dest graph hsrc hfuel
  refine ⟨_, hanswer, ?_⟩
  rw [decide_eq_true_iff]
  have hempty : Explored graph 1 (fun _ => false) [] := ⟨by simp, by simp⟩
  obtain ⟨hscans, hreach⟩ := walkHelper_search hrun rfl hempty
  cases hdest : visited dest with
  | true =>
    obtain ⟨p, hpath, hs⟩ := hreach rfl hdest
    have hs : s = outcome (prune · src dest) dest p := hs rfl
    rw [hs, outcome_eq_found_iff]
    refine ⟨fun hclean => ⟨p, hpath, hclean⟩, ?_⟩
    rintro ⟨p', hpath', hclean⟩
    rwa [hpath.unique hpath']
  | false =>
    have hs : s = .searching := hscans.searching (.inr hdest) rfl
    refine iff_of_false (by simp [hs]) ?_
    rintro ⟨p, hpath, -⟩
    have hto := (hpath.reachesPast (by simp)).2
    have hvisit := (walkHelper_visits hrun dest).2 (ReflTransGen.mono (fun _ _ hstep => hstep.1) src dest hto)
    exact Bool.false_ne_true (hdest.symm.trans hvisit)

/-- With enough fuel, the answer is right if and only if the first path in the order of the links is unpruned
whenever there is an unpruned path. -/
theorem isReachablePruned_exact_iff (fuel : Nat) (hsrc : src < graph.count) (hfuel : graph.count ≤ fuel) :
    ∃ answer, isReachablePruned prune src dest graph fuel = some answer ∧
      ((answer = true ↔ ∃ p, PathTo (graph.Edge 1) src p dest ∧ Unpruned prune src dest p) ↔
        ((∃ p, PathTo (graph.Edge 1) src p dest ∧ Unpruned prune src dest p) →
          ∃ p, FirstPath graph 1 dest [] src p ∧ Unpruned prune src dest p)) := by
  obtain ⟨answer, hanswer, hiff⟩ := isReachablePruned_iff prune src dest graph hsrc hfuel
  refine ⟨answer, hanswer, ?_⟩
  rw [hiff]
  refine ⟨fun h => h.2, fun h => ⟨?_, h⟩⟩
  rintro ⟨p, hpath, hclean⟩
  refine ⟨p.reverse, ?_, fun v hv => hclean v (List.mem_reverse.1 hv)⟩
  simpa using hpath.pathTo .start

end Answer

/-- From 0 over 1 or 2 to 3. -/
def diamondGraph : Graph where
  count := 4
  links dir id := if dir = 1 then [[1, 2], [3], [3], []].getD id [] else []
  links_lt dir := by
    by_cases h : dir = 1
    · simp only [h, if_true]
      decide
    · simp [h]

/-- The first branch is pruned and hides the destination from the second. -/
theorem diamond_pruned : isReachablePruned (fun n _ _ => n = 1) 0 3 diamondGraph 4 = some false ∧
    PathTo (diamondGraph.Edge 1) 0 [3, 2, 0] 3 ∧ Unpruned (fun n _ _ => n = 1) 0 3 [3, 2, 0] := by
  have h2 : diamondGraph.Edge 1 0 2 := by show 2 ∈ [1, 2]; decide
  have h3 : diamondGraph.Edge 1 2 3 := by show 3 ∈ [3]; decide
  exact ⟨by decide +kernel, .step (.step .start h2) h3, by simp [Unpruned]⟩

/-- With the other branch pruned the first path is free. -/
theorem diamond_exact : ∃ answer, isReachablePruned (fun n _ _ => n = 2) 0 3 diamondGraph 4 = some answer ∧
    ((answer = true ↔ ∃ p, PathTo (diamondGraph.Edge 1) 0 p 3 ∧ Unpruned (fun n _ _ => n = 2) 0 3 p) ↔
      ((∃ p, PathTo (diamondGraph.Edge 1) 0 p 3 ∧ Unpruned (fun n _ _ => n = 2) 0 3 p) →
        ∃ p, FirstPath diamondGraph 1 3 [] 0 p ∧ Unpruned (fun n _ _ => n = 2) 0 3 p)) :=
  isReachablePruned_exact_iff (fun n _ _ => n = 2) 0 3 diamondGraph 4 (by decide) (by decide)

end Egalito.Analysis
