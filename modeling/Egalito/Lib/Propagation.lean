import Mathlib.Data.List.Chain
import Mathlib.Tactic
/-!
# A fact that travels along a sequence of visits

The nodes of a graph are visited one after another, some of them more than once.
A visit forgets what the node held; afterwards it holds the fact if the fact is
born there, or if the node lets it through and another node that leads to it
holds it. So a fact gets to a node exactly along the routes whose nodes are
visited in their order, and never from a node to itself.
-/

namespace Egalito.Lib

variable {ι : Type*} (born through : ι → Prop) (link : ι → ι → Prop)

/-- `holds visits n`: the node holds the fact after the visits. -/
structure Propagates (holds : List ι → ι → Prop) : Prop where
  start : ∀ n, ¬ holds [] n
  other : ∀ visits n m, m ≠ n → (holds (visits ++ [n]) m ↔ holds visits m)
  visit : ∀ visits n, holds (visits ++ [n]) n ↔ born n ∨ through n ∧ ∃ p, link p n ∧ p ≠ n ∧ holds visits p

/-- A route from where the fact is born, through nodes that let it through. -/
structure Route (first : ι) (rest : List ι) : Prop where
  born : born first
  through : ∀ n ∈ rest, through n
  linked : (first :: rest).IsChain fun p n => link p n ∧ p ≠ n

variable {born through link} {first : ι} {rest : List ι}

theorem Route.snoc (h : Route born through link first rest) {p n : ι} (hlast : (first :: rest).getLast? = some p)
    (hlink : link p n) (hne : p ≠ n) (hn : through n) : Route born through link first (rest ++ [n]) := by
  refine ⟨h.born, fun m hm => ?_, ?_⟩
  · rcases List.mem_append.1 hm with hm | hm
    · exact h.through m hm
    · exact List.mem_singleton.1 hm ▸ hn
  · rw [← List.cons_append, List.isChain_append]
    refine ⟨h.linked, .singleton n, fun x hx y hy => ?_⟩
    obtain rfl : p = x := Option.some.inj (hlast.symm.trans hx)
    obtain rfl : n = y := Option.some.inj hy
    exact ⟨hlink, hne⟩

theorem Route.of_snoc {n : ι} (h : Route born through link first (rest ++ [n])) :
    Route born through link first rest ∧ through n ∧
      ∃ p, (first :: rest).getLast? = some p ∧ link p n ∧ p ≠ n := by
  have hlinked := h.linked
  rw [← List.cons_append, List.isChain_append] at hlinked
  have hlast : (first :: rest).getLast? = some ((first :: rest).getLast (by simp)) :=
    List.getLast?_eq_some_getLast (by simp)
  refine ⟨⟨h.born, fun m hm => h.through m (List.mem_append_left _ hm), hlinked.1⟩, h.through n (by simp), _, hlast, ?_⟩
  exact hlinked.2.2 _ hlast n rfl

variable {holds : List ι → ι → Prop}

/-- The routes that the visits follow. -/
theorem Propagates.holds_iff (h : Propagates born through link holds) {visits : List ι} {m : ι} :
    holds visits m ↔ ∃ first rest, Route born through link first rest ∧ (first :: rest).getLast? = some m ∧
      (first :: rest).Sublist visits := by
  induction visits using List.reverseRecOn generalizing m with
  | nil => simp [h.start m]
  | append_singleton visits n ih =>
    by_cases hm : m = n
    · subst hm
      rw [h.visit]
      constructor
      · rintro (hborn | ⟨hthrough, p, hlink, hne, hp⟩)
        · exact ⟨m, [], ⟨hborn, by simp, .singleton m⟩, rfl, List.singleton_sublist.2 (by simp)⟩
        · obtain ⟨first, rest, hroute, hlast, hsub⟩ := ih.1 hp
          refine ⟨first, rest ++ [m], hroute.snoc hlast hlink hne hthrough, ?_, ?_⟩
          · rw [← List.cons_append, List.getLast?_concat]
          · exact hsub.append_right [m]
      · rintro ⟨first, rest, hroute, hlast, hsub⟩
        rcases List.eq_nil_or_concat' rest with rfl | ⟨rest, n, rfl⟩
        · exact Or.inl (Option.some.inj hlast ▸ hroute.born)
        · rw [← List.cons_append, List.getLast?_concat] at hlast
          obtain rfl : n = m := Option.some.inj hlast
          obtain ⟨hroute, hthrough, p, hp, hlink, hne⟩ := hroute.of_snoc
          -- the last visit is the one of `m`, so the others come before it
          have hbefore : (first :: rest).Sublist visits := (List.append_sublist_append_right [n]).1 hsub
          exact Or.inr ⟨hthrough, p, hlink, hne, ih.2 ⟨first, rest, hroute, hp, hbefore⟩⟩
    · rw [h.other _ _ _ hm, ih]
      refine exists_congr fun first => exists_congr fun rest => and_congr_right fun _ => and_congr_right fun hlast => ?_
      refine ⟨fun hsub => hsub.trans (List.sublist_append_left _ _), fun hsub => ?_⟩
      obtain ⟨l₁, l₂, hsplit, hl₁, hl₂⟩ := List.sublist_append_iff.1 hsub
      rcases List.sublist_singleton.1 hl₂ with rfl | rfl
      · rw [hsplit, List.append_nil]
        exact hl₁
      · rw [hsplit, List.getLast?_concat] at hlast
        exact absurd (Option.some.inj hlast).symm hm

/-- The routes along which the fact gets to a node at one of its visits. -/
theorem Propagates.arrives_iff (h : Propagates born through link holds) {visits : List ι} {m : ι} :
    (∃ before after, visits = before ++ m :: after ∧ ∃ p, link p m ∧ p ≠ m ∧ holds before p) ↔
      ∃ first rest p, Route born through link first rest ∧ (first :: rest).getLast? = some p ∧ link p m ∧ p ≠ m ∧
        (first :: rest ++ [m]).Sublist visits := by
  constructor
  · rintro ⟨before, after, rfl, p, hlink, hne, hp⟩
    obtain ⟨first, rest, hroute, hlast, hsub⟩ := h.holds_iff.1 hp
    exact ⟨first, rest, p, hroute, hlast, hlink, hne, hsub.append (List.singleton_sublist.2 List.mem_cons_self)⟩
  · rintro ⟨first, rest, p, hroute, hlast, hlink, hne, hsub⟩
    obtain ⟨before, after, rfl, hbefore, hafter⟩ := List.append_sublist_iff.1 hsub
    obtain ⟨l, r, rfl⟩ := List.append_of_mem (List.singleton_sublist.1 hafter)
    refine ⟨before ++ l, r, by simp, p, hlink, hne, h.holds_iff.2 ⟨first, rest, hroute, hlast, ?_⟩⟩
    exact hbefore.trans (List.sublist_append_left _ _)

end Egalito.Lib
