import Egalito.Analysis.TreePattern
/-!
# What a pattern captures

A successful match is a choice of one alternative at each pattern, and has its
captures in the order of the pattern. `matches` adds the captures of the first
one, and nothing else, exactly when no part that has captured something is given up.
-/

open Egalito.Lib

namespace Egalito.Analysis

namespace TreePattern

/-! ## Successful matches -/

/-- A successful match of a pattern on a node, with its captures in pattern order. -/
inductive Matched : TreePattern → TreeNode → List TreeNode → Prop
  | any (node) : Matched any node []
  | terminal {type node} (h : node.isA type) : Matched (terminal type) node []
  | atLeastOneParent {type node parent l} (h : parent ∈ node.parents) (hm : Matched type parent l) :
    Matched (atLeastOneParent type) node l
  | unary {type subType node child l} (h : node.child? type = some child) (hm : Matched subType child l) :
    Matched (unary type subType) node l
  | binary {type leftType rightType node left right l₁ l₂} (h : node.operands? type = some (left, right))
    (hl : Matched leftType left l₁) (hr : Matched rightType right l₂) :
    Matched (binary type leftType rightType) node (l₁ ++ l₂)
  | inOrder {type leftType rightType node left right l₁ l₂} (h : node.operands? type = some (left, right))
    (hl : Matched leftType left l₁) (hr : Matched rightType right l₂) :
    Matched (binaryAnyOrder type leftType rightType) node (l₁ ++ l₂)
  | swapped {type leftType rightType node left right l₁ l₂} (h : node.operands? type = some (left, right))
    (hl : Matched leftType right l₁) (hr : Matched rightType left l₂) :
    Matched (binaryAnyOrder type leftType rightType) node (l₁ ++ l₂)
  | outermost {type leftType rightType node left right l₁ l₂} (h : node.operands? type = some (left, right))
    (hl : Matched leftType left l₁) (hr : Matched rightType right l₂) :
    Matched (recursiveBinary type leftType rightType) node (l₁ ++ l₂)
  | nested {type leftType rightType node left right l₁ l₂} (h : node.operands? type = some (left, right))
    (hl : Matched (recursiveBinary type leftType rightType) left l₁) (hr : Matched rightType right l₂) :
    Matched (recursiveBinary type leftType rightType) node (l₁ ++ l₂)
  | capture {type node l} (hm : Matched type node l) : Matched (capture type) node (node :: l)
  | registerIs {wanted node} (h : node.register? = some wanted) : Matched (registerIs wanted) node []
  | physicalRegisterIs {wanted node} (h : node.physicalRegister? = some wanted) :
    Matched (physicalRegisterIs wanted) node []
  | constantIs {wanted node} (h : node.constant? = some wanted) : Matched (constantIs wanted) node []

/-! ## The order of the alternatives -/

def attemptParents (type : TreeNode → Attempt TreeNode) : List TreeNode → Attempt TreeNode
  | [] => .ends false
  | parent :: parents => .either (type parent) (attemptParents type parents)

def attemptRecursive (type : BinaryClass) (leftType rightType : TreeNode → Attempt TreeNode) : TreeNode → Attempt TreeNode
  | .binary op left right =>
    if op.isA type then
      .both (.either (attemptRecursive type leftType rightType left) (leftType left)) (rightType right)
    else .ends false
  | .comparison left right =>
    if type = .comparison then
      .both (.either (attemptRecursive type leftType rightType left) (leftType left)) (rightType right)
    else .ends false
  | _ => .ends false

/-- What `matches` tries on a node, in its order. -/
def attempt : TreePattern → TreeNode → Attempt TreeNode
  | any, _ => .ends true
  | terminal type, node => .ends (node.isA type)
  | atLeastOneParent type, node => attemptParents type.attempt node.parents
  | unary type subType, node =>
    match node.child? type with
    | some child => subType.attempt child
    | none => .ends false
  | binary type leftType rightType, node =>
    match node.operands? type with
    | some (left, right) => .both (leftType.attempt left) (rightType.attempt right)
    | none => .ends false
  | binaryAnyOrder type leftType rightType, node =>
    match node.operands? type with
    | some (left, right) =>
      .either (.both (leftType.attempt left) (rightType.attempt right))
        (.both (leftType.attempt right) (rightType.attempt left))
    | none => .ends false
  | recursiveBinary type leftType rightType, node => attemptRecursive type leftType.attempt rightType.attempt node
  | capture type, node => .capture node (type.attempt node)
  | registerIs wanted, node => .ends (node.register? == some wanted)
  | physicalRegisterIs wanted, node => .ends (node.physicalRegister? == some wanted)
  | constantIs wanted, node => .ends (node.constant? == some wanted)

/-- The captures of the match that is found first. -/
def firstMatch (p : TreePattern) (node : TreeNode) : Option (List TreeNode) := (p.attempt node).first

/-! ## `matches` follows the order -/

theorem run_ends (result : Bool) : (Attempt.ends result : Attempt TreeNode).run = Matching.test result := rfl

theorem run_both {a b : Attempt TreeNode} {x y : Matching} (ha : a.run = x) (hb : b.run = y) :
    (a.both b).run = x.and y := by
  subst ha hb
  funext captures
  simp only [Attempt.run, Matching.and]
  rcases a.run captures with ⟨_ | _, captures'⟩ <;> rfl

theorem run_either {a b : Attempt TreeNode} {x y : Matching} (ha : a.run = x) (hb : b.run = y) :
    (a.either b).run = x.or y := by
  subst ha hb
  funext captures
  simp only [Attempt.run, Matching.or]
  rcases a.run captures with ⟨_ | _, captures'⟩ <;> rfl

theorem run_attemptParents {type : TreeNode → Attempt TreeNode} {matcher : TreeNode → Matching}
    (h : ∀ node, (type node).run = matcher node) (parents : List TreeNode) :
    (attemptParents type parents).run = Matching.someParent matcher parents := by
  induction parents with
  | nil => rfl
  | cons parent parents ih => exact run_either (h parent) ih

theorem run_attemptRecursive {type : BinaryClass} {leftType rightType : TreeNode → Attempt TreeNode}
    {left right : TreeNode → Matching} (hl : ∀ node, (leftType node).run = left node)
    (hr : ∀ node, (rightType node).run = right node) (node : TreeNode) :
    (attemptRecursive type leftType rightType node).run = Matching.recursive type left right node := by
  induction node using TreeNode.parentsInduction with
  | binary op l r ihl _ =>
    simp only [attemptRecursive, Matching.recursive]
    split
    · exact run_both (run_either ihl (hl l)) (hr r)
    · rfl
  | comparison l r ihl _ =>
    simp only [attemptRecursive, Matching.recursive]
    split
    · exact run_both (run_either ihl (hl l)) (hr r)
    · rfl
  | _ => rfl

theorem run_attempt (p : TreePattern) (node : TreeNode) : (p.attempt node).run = p.matches node := by
  induction p generalizing node with
  | atLeastOneParent type ih => exact run_attemptParents ih node.parents
  | unary type subType ih =>
    simp only [attempt, «matches»]
    cases node.child? type with
    | none => rfl
    | some child => exact ih child
  | binary type leftType rightType ihl ihr =>
    simp only [attempt, «matches»]
    rcases node.operands? type with _ | ⟨left, right⟩
    · rfl
    · exact run_both (ihl left) (ihr right)
  | binaryAnyOrder type leftType rightType ihl ihr =>
    simp only [attempt, «matches»]
    rcases node.operands? type with _ | ⟨left, right⟩
    · rfl
    · exact run_either (run_both (ihl left) (ihr right)) (run_both (ihl right) (ihr left))
  | recursiveBinary type leftType rightType ihl ihr => exact run_attemptRecursive ihl ihr node
  | capture type ih =>
    funext captures
    simp only [attempt, «matches», Attempt.run, ih]
    rcases type.matches node [] with ⟨_ | _, captures'⟩ <;> rfl
  | _ => rfl

/-! ## The first match is a match -/

theorem attemptRecursive_eq (type : BinaryClass) (leftType rightType : TreeNode → Attempt TreeNode) (node : TreeNode) :
    attemptRecursive type leftType rightType node =
      match node.operands? type with
      | some (left, right) =>
        .both (.either (attemptRecursive type leftType rightType left) (leftType left)) (rightType right)
      | none => .ends false := by
  cases node with
  | binary op left right => by_cases h : op.isA type <;> simp [attemptRecursive, TreeNode.operands?, h]
  | comparison left right => by_cases h : type = .comparison <;> simp [attemptRecursive, TreeNode.operands?, h]
  | _ => rfl

/-- An induction with the left operand, for the pattern that repeats itself there. -/
@[elab_as_elim]
theorem leftInduction {P : TreeNode → Prop} (type : BinaryClass)
    (step : ∀ node, (∀ left right, node.operands? type = some (left, right) → P left) → P node) (node : TreeNode) :
    P node := by
  induction node using TreeNode.parentsInduction with
  | binary op left right ihl _ =>
    refine step _ fun left' right' h => ?_
    simp only [TreeNode.operands?, Option.ite_none_right_eq_some, Option.some.injEq, Prod.mk.injEq] at h
    exact h.2.1 ▸ ihl
  | comparison left right ihl _ =>
    refine step _ fun left' right' h => ?_
    simp only [TreeNode.operands?, Option.ite_none_right_eq_some, Option.some.injEq, Prod.mk.injEq] at h
    exact h.2.1 ▸ ihl
  | _ => exact step _ fun left right h => by simp [TreeNode.operands?] at h

theorem first_both_eq_some {a b : Attempt TreeNode} {l : List TreeNode} :
    (a.both b).first = some l ↔ ∃ l₁ l₂, a.first = some l₁ ∧ b.first = some l₂ ∧ l = l₁ ++ l₂ := by
  rw [Attempt.first, Option.bind_eq_some_iff]
  constructor
  · rintro ⟨l₁, h₁, h⟩
    obtain ⟨l₂, h₂, rfl⟩ := Option.map_eq_some_iff.1 h
    exact ⟨l₁, l₂, h₁, h₂, rfl⟩
  · rintro ⟨l₁, l₂, h₁, h₂, rfl⟩
    exact ⟨l₁, h₁, Option.map_eq_some_iff.2 ⟨l₂, h₂, rfl⟩⟩

theorem first_either_eq_some {a b : Attempt TreeNode} {l : List TreeNode} (h : (a.either b).first = some l) :
    a.first = some l ∨ b.first = some l := by
  rcases Option.or_eq_some_iff.1 h with h | ⟨-, h⟩
  · exact .inl h
  · exact .inr h

theorem first_attemptParents {type : TreeNode → Attempt TreeNode} {parents : List TreeNode} {l : List TreeNode}
    (h : (attemptParents type parents).first = some l) : ∃ parent ∈ parents, (type parent).first = some l := by
  induction parents with
  | nil => simp [attemptParents, Attempt.first] at h
  | cons parent parents ih =>
    rcases first_either_eq_some h with h | h
    · exact ⟨parent, List.mem_cons_self, h⟩
    · obtain ⟨p, hp, h⟩ := ih h
      exact ⟨p, List.mem_cons_of_mem _ hp, h⟩

theorem first_ends_eq_some {result : Bool} {l : List TreeNode} :
    (Attempt.ends result : Attempt TreeNode).first = some l ↔ result = true ∧ l = [] := by
  cases result <;> simp [Attempt.first, eq_comm]

theorem matched_of_first {p : TreePattern} {node : TreeNode} {l : List TreeNode} (h : (p.attempt node).first = some l) :
    p.Matched node l := by
  induction p generalizing node l with
  | any =>
    obtain ⟨-, rfl⟩ := first_ends_eq_some.1 h
    exact .any node
  | terminal type =>
    obtain ⟨hresult, rfl⟩ := first_ends_eq_some.1 h
    exact .terminal hresult
  | atLeastOneParent type ih =>
    obtain ⟨parent, hparent, h⟩ := first_attemptParents h
    exact .atLeastOneParent hparent (ih h)
  | unary type subType ih =>
    rw [attempt] at h
    cases hchild : node.child? type with
    | none => simp [hchild, Attempt.first] at h
    | some child =>
      rw [hchild] at h
      exact .unary hchild (ih h)
  | binary type leftType rightType ihl ihr =>
    rw [attempt] at h
    rcases hoperands : node.operands? type with _ | ⟨left, right⟩
    · simp [hoperands, Attempt.first] at h
    · rw [hoperands] at h
      obtain ⟨l₁, l₂, hl, hr, rfl⟩ := first_both_eq_some.1 h
      exact .binary hoperands (ihl hl) (ihr hr)
  | binaryAnyOrder type leftType rightType ihl ihr =>
    rw [attempt] at h
    rcases hoperands : node.operands? type with _ | ⟨left, right⟩
    · simp [hoperands, Attempt.first] at h
    · rw [hoperands] at h
      rcases first_either_eq_some h with h | h <;> obtain ⟨l₁, l₂, hl, hr, rfl⟩ := first_both_eq_some.1 h
      · exact .inOrder hoperands (ihl hl) (ihr hr)
      · exact .swapped hoperands (ihl hl) (ihr hr)
  | recursiveBinary type leftType rightType ihl ihr =>
    simp only [attempt] at h
    induction node using leftInduction type generalizing l with
    | step node ih =>
      rw [attemptRecursive_eq] at h
      rcases hoperands : node.operands? type with _ | ⟨left, right⟩
      · simp [hoperands, Attempt.first] at h
      · rw [hoperands] at h
        obtain ⟨l₁, l₂, hl, hr, rfl⟩ := first_both_eq_some.1 h
        rcases first_either_eq_some hl with hl | hl
        · exact .nested hoperands (ih left right hoperands hl) (ihr hr)
        · exact .outermost hoperands (ihl hl) (ihr hr)
  | capture type ih =>
    obtain ⟨l', hinner, rfl⟩ := Option.map_eq_some_iff.1 h
    exact .capture (ih hinner)
  | registerIs wanted =>
    obtain ⟨hresult, rfl⟩ := first_ends_eq_some.1 h
    exact .registerIs (by simpa using hresult)
  | physicalRegisterIs wanted =>
    obtain ⟨hresult, rfl⟩ := first_ends_eq_some.1 h
    exact .physicalRegisterIs (by simpa using hresult)
  | constantIs wanted =>
    obtain ⟨hresult, rfl⟩ := first_ends_eq_some.1 h
    exact .constantIs (by simpa using hresult)

/-! ## A match is found when there is one -/

theorem isSome_first_both {a b : Attempt TreeNode} (ha : a.first.isSome) (hb : b.first.isSome) :
    (a.both b).first.isSome := by
  obtain ⟨l₁, h₁⟩ := Option.isSome_iff_exists.1 ha
  obtain ⟨l₂, h₂⟩ := Option.isSome_iff_exists.1 hb
  simp [Attempt.first, h₁, h₂]

theorem isSome_first_either {a b : Attempt TreeNode} (h : a.first.isSome ∨ b.first.isSome) :
    (a.either b).first.isSome := by
  rw [Attempt.first, Option.isSome_or, Bool.or_eq_true]
  exact h

theorem isSome_first_attemptParents {type : TreeNode → Attempt TreeNode} {parents : List TreeNode} {parent : TreeNode}
    (hparent : parent ∈ parents) (h : (type parent).first.isSome) : (attemptParents type parents).first.isSome := by
  induction parents with
  | nil => simp at hparent
  | cons head parents ih =>
    rcases List.mem_cons.1 hparent with rfl | hparent
    · exact isSome_first_either (.inl h)
    · exact isSome_first_either (.inr (ih hparent))

theorem isSome_first_of_matched {p : TreePattern} {node : TreeNode} {l : List TreeNode} (h : p.Matched node l) :
    (p.attempt node).first.isSome := by
  induction h with
  | any node => rfl
  | terminal h | registerIs h | physicalRegisterIs h | constantIs h => simp [attempt, Attempt.first, h]
  | atLeastOneParent h _ ih => exact isSome_first_attemptParents h ih
  | unary h _ ih =>
    rw [attempt, h]
    exact ih
  | binary h _ _ ihl ihr =>
    rw [attempt, h]
    exact isSome_first_both ihl ihr
  | inOrder h _ _ ihl ihr =>
    rw [attempt, h]
    exact isSome_first_either (.inl (isSome_first_both ihl ihr))
  | swapped h _ _ ihl ihr =>
    rw [attempt, h]
    exact isSome_first_either (.inr (isSome_first_both ihl ihr))
  | outermost h _ _ ihl ihr =>
    rw [attempt, attemptRecursive_eq, h]
    exact isSome_first_both (isSome_first_either (.inr ihl)) ihr
  | nested h _ _ ihl ihr =>
    rw [attempt, attemptRecursive_eq, h]
    exact isSome_first_both (isSome_first_either (.inl ihl)) ihr
  | capture _ ih => simpa [attempt, Attempt.first] using ih

/-- A pattern matches where there is a successful match. -/
theorem matches_fst_iff (p : TreePattern) (node : TreeNode) (captures : TreeCapture) :
    (p.matches node captures).1 = true ↔ ∃ l, p.Matched node l := by
  rw [← run_attempt, Attempt.run_eq]
  constructor
  · intro h
    obtain ⟨l, h⟩ := Option.isSome_iff_exists.1 h
    exact ⟨l, matched_of_first h⟩
  · rintro ⟨l, h⟩
    exact isSome_first_of_matched h

/-! ## What is added to the capture list -/

/-- The nodes added are the captures of the match that is found, and there are none where no match is found. -/
def Exact (p : TreePattern) (node : TreeNode) (captures : TreeCapture) : Prop :=
  ((p.matches node captures).1 = true →
    ∃ l, p.Matched node l ∧ p.firstMatch node = some l ∧ (p.matches node captures).2 = captures ++ l) ∧
  ((p.matches node captures).1 = false → (p.matches node captures).2 = captures)

theorem exact_iff_added (p : TreePattern) (node : TreeNode) (captures : TreeCapture) :
    p.Exact node captures ↔ (p.attempt node).added = (p.attempt node).first.getD [] := by
  unfold Exact firstMatch
  rw [← run_attempt, Attempt.run_eq]
  cases h : (p.attempt node).first with
  | none => simp
  | some l =>
    constructor
    · rintro ⟨hfound, -⟩
      obtain ⟨l', -, hl, happend⟩ := hfound rfl
      rw [← Option.some.inj hl] at happend
      exact List.append_cancel_left happend
    · intro hadded
      exact ⟨fun _ => ⟨l, matched_of_first h, rfl, congrArg _ hadded⟩, by simp⟩

/-- `matches` adds the captures of the match it finds and nothing else exactly when, in the order of its alternatives,
no binary pattern captures something on its first operand and then fails on its second. -/
theorem matches_exact_iff (p : TreePattern) (node : TreeNode) :
    (∀ captures, p.Exact node captures) ↔ (p.attempt node).Clean := by
  rw [← Attempt.added_eq_iff]
  exact ⟨fun h => (p.exact_iff_added node []).1 (h []), fun h captures => (p.exact_iff_added node captures).2 h⟩

/-- A sum of anything that is captured and of a constant, in either order. -/
def sumWithConstant : TreePattern := .binaryAnyOrder .addition (.capture .any) (.terminal .constant)

/-- On `4 + r` the first order captures the constant and fails; the second one matches, and both nodes are captured. -/
theorem first_order_left_behind :
    let tree := TreeNode.binary .addition (.constant 4) (.physicalRegister 0 8)
    sumWithConstant.matches tree [] = (true, [.constant 4, .physicalRegister 0 8]) ∧
      ¬ ∃ l, sumWithConstant.Matched tree l ∧ (sumWithConstant.matches tree []).2 = [] ++ l := by
  refine ⟨rfl, ?_⟩
  rintro ⟨l, hmatched, hl⟩
  have hlength : l.length = 2 := by rw [← List.nil_append l, ← hl]; rfl
  cases hmatched with
  | inOrder h _ hr =>
    cases h
    cases hr with
    | terminal h => exact absurd h (by decide)
  | swapped h hl hr =>
    cases h
    cases hl with
    | capture hm =>
      cases hm
      cases hr with
      | terminal h => simp at hlength

end TreePattern

end Egalito.Analysis
