import Egalito.Elf.CanonicalAlias
/-!
# Union-find

`UnionFind` of `elf/unionfind.cpp` under any sequence of joins, with its own choice of
the root that stays one and with that of `SymbolAliasFinder`.
-/

open Egalito.Lib Function Relation

namespace Egalito.Elf

/-! ## The operations -/

/-- What `find` writes: the root that it found, as its own parent. -/
def UnionFind.compress (uf : UnionFind) (x : Nat) : UnionFind :=
  { uf with parent := update uf.parent (uf.find x) (uf.find x) }

/-- `join`, over the `setEdge` of the class. -/
def UnionFind.joinBy (setEdge : UnionFind → Nat → Nat → UnionFind) (uf : UnionFind) (x1 x2 : Nat) : UnionFind :=
  let p1 := uf.find x1
  let uf := uf.compress x1
  let p2 := uf.find x2
  let uf := uf.compress x2
  setEdge uf p1 p2

def UnionFind.setEdge (uf : UnionFind) (x1 x2 : Nat) : UnionFind :=
  let uf := if x1 < x2 then ⟨update uf.parent x2 x1, uf.edges + 1⟩ else uf
  if x1 > x2 then ⟨update uf.parent x1 x2, uf.edges + 1⟩ else uf

/-- `join` of the class itself. -/
def UnionFind.join : UnionFind → Nat → Nat → UnionFind := UnionFind.joinBy UnionFind.setEdge

/-- `join` of a `SymbolAliasFinder`. -/
def SymbolAliasFinder.join (symbols : List Symbol) (sortedList : List Nat) : UnionFind → Nat → Nat → UnionFind :=
  UnionFind.joinBy (Elf.setEdge symbols sortedList)

def runJoins (join : UnionFind → Nat → Nat → UnionFind) (joins : List (Nat × Nat)) : UnionFind :=
  joins.foldl (fun uf j => join uf j.1 j.2) .new

/-! ## What the joins should come to -/

/-- The loop of `find` ends after some rounds, at a root; no element but a root is on a path back to
itself; and the elements with one root are those that the joins connect. -/
structure Represents (uf : UnionFind) (joins : List (Nat × Nat)) : Prop where
  terminates : ∀ x, ∃ rounds, uf.parent^[rounds] x = uf.find x ∧ uf.parent (uf.find x) = uf.find x ∧
    ∀ count, rounds ≤ count → findLoop uf.parent count x = uf.find x
  forest : ∀ x k, uf.parent^[k + 1] x = x → uf.parent x = x
  same : ∀ x y, uf.find x = uf.find y ↔ Joined joins x y

theorem Represents.find_find {uf : UnionFind} {joins : List (Nat × Nat)} (h : Represents uf joins) (x : Nat) :
    uf.find (uf.find x) = uf.find x := by
  obtain ⟨rounds, -, hroot, -⟩ := h.terminates x
  obtain ⟨rounds', hrounds', -, -⟩ := h.terminates (uf.find x)
  rw [← hrounds']
  exact iterate_fixed hroot rounds'

/-- Joins of elements below `count` leave these among themselves. -/
theorem Represents.find_lt {uf : UnionFind} {joins : List (Nat × Nat)} (h : Represents uf joins) {count : Nat}
    (hjoins : ∀ j ∈ joins, j.1 < count ∧ j.2 < count) {x : Nat} (hx : x < count) : uf.find x < count := by
  have hjoined : Joined joins x (uf.find x) := (h.same x (uf.find x)).1 (h.find_find x).symm
  rcases hjoined.mem (S := fun x => x < count) hjoins with heq | ⟨-, hlt⟩
  · rwa [← heq]
  · exact hlt

/-! ## The loop of find -/

theorem leadsTo_findLoop {parent : Nat → Nat} {count x : Nat} (h : RootedAt parent count x) :
    LeadsTo parent x (findLoop parent count x) := by
  induction count generalizing x with
  | zero => exact .root h
  | succ count ih =>
    rw [findLoop]
    split_ifs with hx
    · exact .root hx
    · exact .step (ih h)

/-- Every path ends within as many steps as edges were set. -/
def Rooted (uf : UnionFind) : Prop := ∀ x, RootedAt uf.parent uf.edges x

namespace Rooted

variable {uf : UnionFind} (h : Rooted uf)

include h

theorem leadsTo (x : Nat) : LeadsTo uf.parent x (uf.find x) := leadsTo_findLoop (h x)

theorem isRoot (x : Nat) : uf.parent (uf.find x) = uf.find x := (h.leadsTo x).isRoot

/-- The path compression writes what is there. -/
theorem compress (x : Nat) : uf.compress x = uf := by
  have hwrite : update uf.parent (uf.find x) (uf.find x) = uf.parent := by
    rw [update_eq_self_iff]
    exact (h.isRoot x).symm
  rw [UnionFind.compress, hwrite]

theorem joinBy (setEdge : UnionFind → Nat → Nat → UnionFind) (x1 x2 : Nat) :
    uf.joinBy setEdge x1 x2 = setEdge uf (uf.find x1) (uf.find x2) := by
  simp only [UnionFind.joinBy, h.compress]

/-- The loop ends without a bound on its rounds. -/
theorem terminates (x : Nat) : ∃ rounds, uf.parent^[rounds] x = uf.find x ∧ uf.parent (uf.find x) = uf.find x ∧
    ∀ count, rounds ≤ count → findLoop uf.parent count x = uf.find x := by
  have hleads := h.leadsTo x
  obtain ⟨rounds, hrounds⟩ := hleads.exists_iterate
  have hrooted : RootedAt uf.parent rounds x := by
    rw [rootedAt_iff_iterate, hrounds]
    exact h.isRoot x
  exact ⟨rounds, hrounds, h.isRoot x, fun count hle => hleads.unique (leadsTo_findLoop (hrooted.mono hle))⟩

theorem forest (x : Nat) (k : Nat) (hcycle : uf.parent^[k + 1] x = x) : uf.parent x = x :=
  (h.leadsTo x).root_of_cycle hcycle

/-- An edge from a root to a root. -/
theorem edge {a b : Nat} (hb : uf.parent b = b) : Rooted ⟨update uf.parent a b, uf.edges + 1⟩ :=
  fun x => (h x).update hb

theorem find_edge {a b : Nat} (ha : uf.parent a = a) (hb : uf.parent b = b) (x : Nat) :
    UnionFind.find ⟨update uf.parent a b, uf.edges + 1⟩ x = if uf.find x = a then b else uf.find x :=
  ((h.leadsTo x).update ha hb).unique ((h.edge hb).leadsTo x)

end Rooted

/-! ## The choice of the root -/

/-- One of the two roots gets the other as its parent, or they are one root already. -/
inductive Links (uf : UnionFind) (p1 p2 : Nat) : UnionFind → Prop
  | left : Links uf p1 p2 ⟨update uf.parent p1 p2, uf.edges + 1⟩
  | right : Links uf p1 p2 ⟨update uf.parent p2 p1, uf.edges + 1⟩
  | same : p1 = p2 → Links uf p1 p2 uf

theorem links_setEdge (uf : UnionFind) (p1 p2 : Nat) : Links uf p1 p2 (uf.setEdge p1 p2) := by
  rw [UnionFind.setEdge]
  rcases Nat.lt_trichotomy p1 p2 with hlt | heq | hgt
  · rw [if_neg (by omega), if_pos hlt]
    exact .right
  · rw [if_neg (by omega), if_neg (by omega)]
    exact .same heq
  · rw [if_pos hgt, if_neg (by omega)]
    exact .left

/-- The comparison of two symbols always takes a side. -/
theorem edgeComparator_ne_zero (symbols : List Symbol) (sortedList : List Nat) (x1 x2 : Nat) :
    edgeComparator symbols sortedList x1 x2 ≠ 0 := by
  have hite : ∀ (c : Prop) [Decidable c] (a b : Int), a ≠ 0 → b ≠ 0 → (if c then a else b) ≠ 0 := by
    intro c _ a b ha hb
    split_ifs
    · exact ha
    · exact hb
  unfold edgeComparator
  -- one step for each comparison, the last is the arbitrary choice
  repeat refine hite _ _ _ (by decide) ?_
  decide

theorem links_finder_setEdge (symbols : List Symbol) (sortedList : List Nat) (uf : UnionFind) (p1 p2 : Nat) :
    Links uf p1 p2 (setEdge symbols sortedList uf p1 p2) := by
  have hside := edgeComparator_ne_zero symbols sortedList p1 p2
  rw [setEdge]
  split_ifs with hneg hpos
  · exact .left
  · exact .right
  · omega

/-! ## Any sequence of joins -/

section Runs

variable {setEdge : UnionFind → Nat → Nat → UnionFind} (hlinks : ∀ uf p1 p2, Links uf p1 p2 (setEdge uf p1 p2))

include hlinks

/-- One join keeps the structure rooted and connects its two elements. -/
theorem joinBy_step {uf : UnionFind} {joins : List (Nat × Nat)} (h : Rooted uf)
    (hsame : ∀ x y, uf.find x = uf.find y ↔ Joined joins x y) (p q : Nat) :
    Rooted (uf.joinBy setEdge p q) ∧
      ∀ x y, (uf.joinBy setEdge p q).find x = (uf.joinBy setEdge p q).find y ↔
        Joined (joins ++ [(p, q)]) x y := by
  rw [h.joinBy]
  have hlink := hlinks uf (uf.find p) (uf.find q)
  generalize setEdge uf (uf.find p) (uf.find q) = uf' at hlink ⊢
  cases hlink with
  | left =>
    refine ⟨h.edge (h.isRoot q), fun x y => ?_⟩
    rw [h.find_edge (h.isRoot p) (h.isRoot q), h.find_edge (h.isRoot p) (h.isRoot q)]
    exact joined_concat hsame (Or.inl rfl) x y
  | right =>
    refine ⟨h.edge (h.isRoot p), fun x y => ?_⟩
    rw [h.find_edge (h.isRoot q) (h.isRoot p), h.find_edge (h.isRoot q) (h.isRoot p)]
    exact joined_concat hsame (Or.inr rfl) x y
  | same heq =>
    refine ⟨h, fun x y => ?_⟩
    rw [← joined_concat hsame (Or.inl rfl) x y, ← heq, ite_eq_right_iff.2 Eq.symm, ite_eq_right_iff.2 Eq.symm]

theorem represents_run (joins : List (Nat × Nat)) : Represents (runJoins (UnionFind.joinBy setEdge) joins) joins := by
  have hrun : Rooted (runJoins (UnionFind.joinBy setEdge) joins) ∧
      ∀ x y, (runJoins (UnionFind.joinBy setEdge) joins).find x = (runJoins (UnionFind.joinBy setEdge) joins).find y ↔
        Joined joins x y := by
    induction joins using List.reverseRecOn with
    | nil => exact ⟨fun _ => rfl, fun _ _ => joined_nil.symm⟩
    | append_singleton joins j ih =>
      simp only [runJoins, List.foldl_append, List.foldl_cons, List.foldl_nil]
      exact joinBy_step hlinks ih.1 ih.2 j.1 j.2
  exact ⟨hrun.1.terminates, hrun.1.forest, hrun.2⟩

end Runs

/-- Union-find under any sequence of joins, with either choice of the root. -/
theorem joins_represented (symbols : List Symbol) (sortedList : List Nat) (joins : List (Nat × Nat)) :
    Represents (runJoins UnionFind.join joins) joins ∧
      Represents (runJoins (SymbolAliasFinder.join symbols sortedList) joins) joins :=
  ⟨represents_run links_setEdge joins, represents_run (links_finder_setEdge symbols sortedList) joins⟩

end Egalito.Elf
