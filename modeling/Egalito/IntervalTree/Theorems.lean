import Egalito.IntervalTree.Invariants
/-!
# The interval tree is a bag of ranges

Over every run of `add` and `remove` calls the tree gives the results of the
abstract store, and its lookups return exactly the stored ranges asked for.
-/

namespace Egalito.IntervalTree

/-- The tree stands for the store: the invariant holds, and it keeps the same
ranges inside the same bounds. -/
structure Refines (n : Node) (s : Store) : Prop where
  ok : n.Ok
  bounds : n.totalRange? = some s.bounds
  ranges : n.inStartOrderTraversal.Perm s.ranges

theorem refines_make (bounds : Range) : Refines (make bounds) ⟨bounds, []⟩ :=
  ⟨Node.ok_make bounds, rfl, by simp [Node.make, Node.inStartOrderTraversal]⟩

/-- One call gives the store's result, and the trees still stand for it. -/
theorem exec_refines {n : Node} {s : Store} (h : Refines n s) (op : Op) (hop : op.range.Proper) :
    ∃ n', exec n op = some (n', (s.exec op).2) ∧ Refines n' (s.exec op).1 := by
  obtain ⟨hok, hb, hr⟩ := h
  cases op with
  | add r =>
    have hop' : r.Proper := hop
    have hsize : s.bounds.size.toNat ≤ 2 ^ 64 := Nat.le_of_lt s.bounds.size.isLt
    obtain ⟨n', hadd, hok', hb', hp⟩ := Node.add_spec hop' 64 n s.bounds hb hok hsize
    have hin := Range.containsRange_iff_subset (r := s.bounds) (s := r) hop'
    by_cases hc : s.bounds.containsRange r = true
    · simp only [hc, if_true] at hadd hp
      refine ⟨n', ?_, ?_⟩
      · simpa [exec, Store.exec, hin.1 hc, addDepth, hc] using hadd
      · simp only [Store.exec, hin.1 hc, if_true]
        exact ⟨hok', hb', hp.trans (hr.cons r)⟩
    · have hns := mt hin.2 hc
      simp only [hc] at hp
      refine ⟨n', ?_, ?_⟩
      · simpa [exec, Store.exec, hns, addDepth, hc] using hadd
      · simp only [Store.exec, hns, if_false]
        exact ⟨hok', hb', hp.trans hr⟩
  | remove r =>
    have hop' : r.Proper := hop
    obtain ⟨n', hrem, hok', hb', hp⟩ := Node.remove_spec hop' n hok
    refine ⟨n', ?_, hok', by rw [hb', hb]; rfl, hp.trans (hr.erase r)⟩
    simp only [exec, hrem, Store.exec, hr.mem_iff]

/-- So does every run of calls: no assertion fails, and no call runs forever. -/
theorem run_refines (ops : List Op) : ∀ (n : Node) (s : Store), Refines n s → (∀ op ∈ ops, op.range.Proper) →
    ∃ n', run n ops = some (n', (s.run ops).2) ∧ Refines n' (s.run ops).1 := by
  induction ops with
  | nil => intro n s h _; exact ⟨n, rfl, h⟩
  | cons op ops ih =>
    intro n s h hops
    obtain ⟨n1, he, h1⟩ := exec_refines h op (hops op (by simp))
    obtain ⟨n2, hr, h2⟩ := ih n1 (s.exec op).1 h1 (fun o ho => hops o (by simp [ho]))
    exact ⟨n2, by simp [run, he, hr, Store.run], h2⟩

/-- After any sequence of `add` and `remove` calls on proper ranges, starting
from an empty tree: the calls returned what the bag of ranges inside the bounds
returns, both overlap lists of every node hold the same ranges, a lookup by point
returns exactly the stored ranges that contain the point, and a lookup by range
exactly those that overlap it. -/
theorem interval_tree_is_bag (bounds : Range) (ops : List Op) (hops : ∀ op ∈ ops, op.range.Proper) :
    ∃ tree, run (make bounds) ops = some (tree, ((Store.mk bounds []).run ops).2) ∧ ListsAgree tree ∧
      (∀ point, (tree.findOverlapping point).Perm
        (((Store.mk bounds []).run ops).1.ranges.filter (·.contains point))) ∧
      (∀ range, (tree.findOverlappingRange range).Perm
        (((Store.mk bounds []).run ops).1.ranges.filter (·.overlaps range))) := by
  obtain ⟨tree, hrun, href⟩ := run_refines ops _ _ (refines_make bounds) hops
  refine ⟨tree, hrun, Node.lists_agree href.ok, fun point => ?_, fun range => ?_⟩
  · exact (Node.findOverlapping_eq point tree href.ok).trans (href.ranges.filter _)
  · rw [Node.findOverlappingRange_eq range tree href.ok]
    exact href.ranges.filter _

theorem interval_tree_is_bag_sample :
    (run (make ⟨0, 64⟩) [.add ⟨16, 14⟩, .add ⟨9, 2⟩, .add ⟨60, 8⟩, .remove ⟨9, 2⟩]).map Prod.snd =
        some [true, true, false, true] ∧
      ∃ tree results, run (make ⟨0, 64⟩) [.add ⟨16, 14⟩, .add ⟨9, 2⟩, .add ⟨60, 8⟩, .remove ⟨9, 2⟩] =
        some (tree, results) ∧ ListsAgree tree := by
  obtain ⟨tree, hrun, hl, -⟩ := interval_tree_is_bag ⟨0, 64⟩
    [.add ⟨16, 14⟩, .add ⟨9, 2⟩, .add ⟨60, 8⟩, .remove ⟨9, 2⟩] (by simp [Op.range, Range.Proper])
  exact ⟨by decide, tree, _, hrun, hl⟩

end Egalito.IntervalTree
