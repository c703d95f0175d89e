import Egalito.Analysis.SlicingTree
/-!
# What `equal` trees have in common

`equal` swaps the operands of every operator, and does not look at widths. The
trees that it takes for equal agree in a loose sense, and they have one value
when they agree in the strict sense, where only commutative operators are swapped.
-/

namespace Egalito.Analysis

/-! ## Values -/

/-- What the contents of the registers and of the memory, and the operators, give the nodes as values. -/
structure Meaning (V : Type) where
  constant : BitVec 64 → V
  address : BitVec 64 → V
  register : DisasmRegister → V
  registerRIP : BitVec 64 → V
  physicalRegister : Int → Nat → V
  unary : UnaryNode → V → V
  binary : BinaryNode → V → V → V
  comparison : V → V → V
  multipleParents : List V → V

def BinaryNode.Commutative : BinaryNode → Prop
  | addition | multiplication | and | or | xor => True
  | _ => False

/-- The commutative operators commute. -/
def Meaning.Lawful {V : Type} (m : Meaning V) : Prop :=
  ∀ op : BinaryNode, op.Commutative → ∀ a b, m.binary op a b = m.binary op b a

namespace TreeNode

def value {V : Type} (m : Meaning V) : TreeNode → V
  | constant value => m.constant value
  | address value => m.address value
  | register reg => m.register reg
  | registerRIP value => m.registerRIP value
  | physicalRegister reg width => m.physicalRegister reg width
  | unary op node => m.unary op (node.value m)
  | binary op left right => m.binary op (left.value m) (right.value m)
  | comparison left right => m.comparison (left.value m) (right.value m)
  | multipleParents parents => m.multipleParents (parents.map (value m))

/-! ## Agreement -/

/-- Trees that are the same up to the order of operands: of the commutative operators, and in the loose sense of all
operators and of comparisons. In the loose sense widths may differ as well, and the second tree may know the value of
the instruction pointer. -/
inductive Agree (loose : Prop) : TreeNode → TreeNode → Prop
  | constant (value) : Agree loose (constant value) (constant value)
  | address (value) : Agree loose (address value) (address value)
  | register (reg) : Agree loose (register reg) (register reg)
  | knownRIP (value) (h : loose) : Agree loose (register .rip) (registerRIP value)
  | registerRIP (value) : Agree loose (registerRIP value) (registerRIP value)
  | physicalRegister (reg) {width width'} (h : width = width' ∨ loose) :
    Agree loose (physicalRegister reg width) (physicalRegister reg width')
  | unary {op op' : UnaryNode} {node node'} (h : op = op' ∨ loose ∧ op.getName = op'.getName)
    (hnode : Agree loose node node') : Agree loose (unary op node) (unary op' node')
  | binary {op op' : BinaryNode} {left right left' right'} (h : op = op' ∨ loose ∧ op.getOperator = op'.getOperator)
    (hleft : Agree loose left left') (hright : Agree loose right right') :
    Agree loose (binary op left right) (binary op' left' right')
  | swapped {op op' : BinaryNode} {left right left' right'} (h : op = op' ∨ loose ∧ op.getOperator = op'.getOperator)
    (hswap : op.Commutative ∨ loose) (hright : Agree loose right left') (hleft : Agree loose left right') :
    Agree loose (binary op left right) (binary op' left' right')
  | comparison {left right left' right'} (hleft : Agree loose left left') (hright : Agree loose right right') :
    Agree loose (comparison left right) (comparison left' right')
  | swappedComparison {left right left' right'} (h : loose) (hright : Agree loose right left')
    (hleft : Agree loose left right') : Agree loose (comparison left right) (comparison left' right')
  | multipleParents {parents parents'} (h : List.Forall₂ (fun t' t => Agree loose t' t) parents' parents) :
    Agree loose (multipleParents parents) (multipleParents parents')

variable {loose : Prop}

theorem agree_refl (t : TreeNode) : Agree loose t t := by
  induction t using parentsInduction with
  | constant value => exact .constant value
  | address value => exact .address value
  | register reg => exact .register reg
  | registerRIP value => exact .registerRIP value
  | physicalRegister reg width => exact .physicalRegister reg (.inl rfl)
  | unary op node ih => exact .unary (.inl rfl) ih
  | binary op left right ihl ihr => exact .binary (.inl rfl) ihl ihr
  | comparison left right ihl ihr => exact .comparison ihl ihr
  | multipleParents parents ih => exact .multipleParents (List.forall₂_same.2 ih)

/-- An induction on the size of two trees, where the two may change places. -/
theorem pairInduction {P : TreeNode → TreeNode → Prop}
    (step : ∀ t t', (∀ s s', sizeOf s + sizeOf s' < sizeOf t + sizeOf t' → P s s') → P t t') (t t' : TreeNode) :
    P t t' := by
  suffices ∀ n t t', sizeOf t + sizeOf t' = n → P t t' from this _ t t' rfl
  intro n
  induction n using Nat.strong_induction_on with
  | h n ih => exact fun t t' heq => step t t' fun s s' hlt => ih _ (heq ▸ hlt) s s' rfl

theorem sizeOf_add_lt {s s' : TreeNode} {ts ts' : List TreeNode} (hs : s ∈ ts) (hs' : s' ∈ ts') :
    sizeOf s + sizeOf s' < sizeOf (multipleParents ts) + sizeOf (multipleParents ts') := by
  have h := List.sizeOf_lt_of_mem hs
  have h' := List.sizeOf_lt_of_mem hs'
  rw [multipleParents.sizeOf_spec, multipleParents.sizeOf_spec]
  omega

theorem forall₂_imp {R S : TreeNode → TreeNode → Prop} {ts ts' : List TreeNode}
    (h : ∀ t ∈ ts, ∀ t' ∈ ts', R t t' → S t t') (hR : List.Forall₂ R ts ts') : List.Forall₂ S ts ts' := by
  induction hR with
  | nil => exact .nil
  | cons hhead htail ih =>
    refine .cons (h _ List.mem_cons_self _ List.mem_cons_self hhead) (ih fun t ht t' ht' => ?_)
    exact h t (List.mem_cons_of_mem _ ht) t' (List.mem_cons_of_mem _ ht')

theorem forall₂_congr {R S : TreeNode → TreeNode → Prop} {ts ts' : List TreeNode}
    (h : ∀ t ∈ ts, ∀ t' ∈ ts', R t t' ↔ S t t') : List.Forall₂ R ts ts' ↔ List.Forall₂ S ts ts' :=
  ⟨forall₂_imp fun t ht t' ht' => (h t ht t' ht').1, forall₂_imp fun t ht t' ht' => (h t ht t' ht').2⟩

theorem equalParents_iff (ts ts' : List TreeNode) : equalParents ts ts' = true ↔
    List.Forall₂ (fun t t' => t.equal t' = true) ts ts' := by
  induction ts generalizing ts' with
  | nil => cases ts' <;> simp [equalParents]
  | cons t ts ih => cases ts' <;> simp [equalParents, ih]

/-- The code compares in the loose sense. -/
theorem equal_iff_agree (t t' : TreeNode) : t.equal t' = true ↔ Agree True t t' := by
  induction t, t' using pairInduction with
  | step t t' ih =>
    constructor
    · intro h
      cases t <;> cases t' <;>
        simp only [equal, Bool.false_eq_true, beq_iff_eq, Bool.and_eq_true, Bool.or_eq_true] at h
      case unary.unary op node op' node' =>
        exact .unary (.inr ⟨trivial, h.1⟩) ((ih node node' (by simp; omega)).1 h.2)
      case binary.binary op left right op' left' right' =>
        rcases h.2 with ⟨hl, hr⟩ | ⟨hr, hl⟩
        · exact .binary (.inr ⟨trivial, h.1⟩) ((ih left left' (by simp; omega)).1 hl)
            ((ih right right' (by simp; omega)).1 hr)
        · exact .swapped (.inr ⟨trivial, h.1⟩) (.inr trivial) ((ih right left' (by simp; omega)).1 hr)
            ((ih left right' (by simp; omega)).1 hl)
      case comparison.comparison left right left' right' =>
        rcases h with ⟨hl, hr⟩ | ⟨hr, hl⟩
        · exact .comparison ((ih left left' (by simp; omega)).1 hl) ((ih right right' (by simp; omega)).1 hr)
        · exact .swappedComparison trivial ((ih right left' (by simp; omega)).1 hr)
            ((ih left right' (by simp; omega)).1 hl)
      case multipleParents.multipleParents parents parents' =>
        rw [equalParents_iff, forall₂_congr fun s' hs' s hs => ih s' s (by rw [add_comm (sizeOf (multipleParents _))]; exact sizeOf_add_lt hs' hs)] at h
        exact .multipleParents h
      all_goals subst h
      · exact .constant _
      · exact .address _
      · exact .register _
      · exact .knownRIP _ trivial
      · exact .registerRIP _
      · exact .physicalRegister _ (.inr trivial)
    · intro h
      cases h with
      | unary h hnode =>
        have hname := h.elim (congrArg UnaryNode.getName) And.right
        simp only [equal, hname, (ih _ _ (by simp; omega)).2 hnode, BEq.rfl, Bool.and_self]
      | binary h hleft hright =>
        have hname := h.elim (congrArg BinaryNode.getOperator) And.right
        simp only [equal, hname, (ih _ _ (by simp; omega)).2 hleft, (ih _ _ (by simp; omega)).2 hright, BEq.rfl,
          Bool.and_self, Bool.true_or]
      | swapped h hswap hright hleft =>
        have hname := h.elim (congrArg BinaryNode.getOperator) And.right
        simp only [equal, hname, (ih _ _ (by simp; omega)).2 hleft, (ih _ _ (by simp; omega)).2 hright, BEq.rfl,
          Bool.and_self, Bool.or_true]
      | comparison hleft hright =>
        simp only [equal, (ih _ _ (by simp; omega)).2 hleft, (ih _ _ (by simp; omega)).2 hright, Bool.and_self,
          Bool.true_or]
      | swappedComparison h hright hleft =>
        simp only [equal, (ih _ _ (by simp; omega)).2 hleft, (ih _ _ (by simp; omega)).2 hright, Bool.and_self,
          Bool.or_true]
      | @multipleParents parents parents' h =>
        rw [equal, equalParents_iff, forall₂_congr fun s' hs' s hs => ih s' s (by rw [add_comm (sizeOf (multipleParents _))]; exact sizeOf_add_lt hs' hs)]
        exact h
      | _ => simp only [equal, BEq.rfl]

/-! ## Equivalence -/

theorem forall₂_comp {R S T : TreeNode → TreeNode → Prop} {ts ts' ts'' : List TreeNode} (hR : List.Forall₂ R ts ts')
    (hS : List.Forall₂ S ts' ts'') (h : ∀ t ∈ ts, ∀ t' ∈ ts', ∀ t'' ∈ ts'', R t t' → S t' t'' → T t t'') :
    List.Forall₂ T ts ts'' := by
  induction hR generalizing ts'' with
  | nil =>
    cases hS
    exact .nil
  | cons hRhead hRtail ih =>
    cases hS with
    | cons hShead hStail =>
      refine .cons (h _ List.mem_cons_self _ List.mem_cons_self _ List.mem_cons_self hRhead hShead) (ih hStail ?_)
      exact fun t ht t' ht' t'' ht'' => h t (List.mem_cons_of_mem _ ht) t' (List.mem_cons_of_mem _ ht') t''
        (List.mem_cons_of_mem _ ht'')

theorem sameOp_trans {Op : Type} {name : Op → String} {a b c : Op} (hab : a = b ∨ loose ∧ name a = name b)
    (hbc : b = c ∨ loose ∧ name b = name c) : a = c ∨ loose ∧ name a = name c := by
  rcases hab with rfl | hab
  · exact hbc
  · rcases hbc with rfl | hbc
    · exact .inr hab
    · exact .inr ⟨hab.1, hab.2.trans hbc.2⟩

theorem swap_of_sameOp {op op' : BinaryNode} (h : op = op' ∨ loose ∧ op.getOperator = op'.getOperator)
    (hswap : op'.Commutative ∨ loose) : op.Commutative ∨ loose := by
  rcases h with rfl | h
  · exact hswap
  · exact .inr h.1

theorem agree_trans {t t' t'' : TreeNode} (h : Agree loose t t') (h' : Agree loose t' t'') : Agree loose t t'' := by
  suffices ∀ n t t' t'', sizeOf t + sizeOf t' + sizeOf t'' = n → Agree loose t t' → Agree loose t' t'' →
      Agree loose t t'' from this _ t t' t'' rfl h h'
  clear h h' t t' t''
  intro n
  induction n using Nat.strong_induction_on with
  | h n ih =>
    intro t t' t'' hn h h'
    have go : ∀ s s' s'', sizeOf s + sizeOf s' + sizeOf s'' < sizeOf t + sizeOf t' + sizeOf t'' → Agree loose s s' →
        Agree loose s' s'' → Agree loose s s'' := fun s s' s'' hlt => ih _ (hn ▸ hlt) s s' s'' rfl
    clear ih hn
    cases h with
    | constant => exact h'
    | address => exact h'
    | register => exact h'
    | registerRIP => exact h'
    | knownRIP value hloose =>
      cases h' with
      | registerRIP => exact .knownRIP value hloose
    | physicalRegister reg hwidth =>
      cases h' with
      | physicalRegister _ hwidth' =>
        refine .physicalRegister reg ?_
        rcases hwidth with rfl | hloose
        · exact hwidth'
        · exact .inr hloose
    | unary hop hnode =>
      cases h' with
      | unary hop' hnode' => exact .unary (sameOp_trans hop hop') (go _ _ _ (by simp; omega) hnode hnode')
    | binary hop hleft hright =>
      cases h' with
      | binary hop' hleft' hright' =>
        exact .binary (sameOp_trans hop hop') (go _ _ _ (by simp; omega) hleft hleft')
          (go _ _ _ (by simp; omega) hright hright')
      | swapped hop' hswap hright' hleft' =>
        exact .swapped (sameOp_trans hop hop') (swap_of_sameOp hop hswap) (go _ _ _ (by simp; omega) hright hright')
          (go _ _ _ (by simp; omega) hleft hleft')
    | swapped hop hswap hright hleft =>
      cases h' with
      | binary hop' hleft' hright' =>
        exact .swapped (sameOp_trans hop hop') hswap (go _ _ _ (by simp; omega) hright hleft')
          (go _ _ _ (by simp; omega) hleft hright')
      | swapped hop' _ hright' hleft' =>
        exact .binary (sameOp_trans hop hop') (go _ _ _ (by simp; omega) hleft hright')
          (go _ _ _ (by simp; omega) hright hleft')
    | comparison hleft hright =>
      cases h' with
      | comparison hleft' hright' =>
        exact .comparison (go _ _ _ (by simp; omega) hleft hleft') (go _ _ _ (by simp; omega) hright hright')
      | swappedComparison hloose hright' hleft' =>
        exact .swappedComparison hloose (go _ _ _ (by simp; omega) hright hright')
          (go _ _ _ (by simp; omega) hleft hleft')
    | swappedComparison hloose hright hleft =>
      cases h' with
      | comparison hleft' hright' =>
        exact .swappedComparison hloose (go _ _ _ (by simp; omega) hright hleft')
          (go _ _ _ (by simp; omega) hleft hright')
      | swappedComparison _ hright' hleft' =>
        exact .comparison (go _ _ _ (by simp; omega) hleft hright') (go _ _ _ (by simp; omega) hright hleft')
    | multipleParents h =>
      cases h' with
      | multipleParents h' =>
        refine .multipleParents (forall₂_comp h' h fun r hr q hq p hp hrq hqp => go r q p ?_ hrq hqp)
        have h₁ := List.sizeOf_lt_of_mem hr
        have h₂ := List.sizeOf_lt_of_mem hq
        have h₃ := List.sizeOf_lt_of_mem hp
        simp only [multipleParents.sizeOf_spec]
        omega

theorem agree_loose {t t' : TreeNode} (h : Agree False t t') : Agree True t t' := by
  induction t, t' using pairInduction with
  | step t t' ih =>
    cases h with
    | constant => exact .constant _
    | address => exact .address _
    | register => exact .register _
    | registerRIP => exact .registerRIP _
    | knownRIP _ hloose => exact hloose.elim
    | physicalRegister reg hwidth => exact .physicalRegister reg (.inr trivial)
    | unary hop hnode => exact .unary (.inl (hop.resolve_right And.left)) (ih _ _ (by simp; omega) hnode)
    | binary hop hleft hright =>
      exact .binary (.inl (hop.resolve_right And.left)) (ih _ _ (by simp; omega) hleft) (ih _ _ (by simp; omega) hright)
    | swapped hop hswap hright hleft =>
      exact .swapped (.inl (hop.resolve_right And.left)) (.inr trivial) (ih _ _ (by simp; omega) hright)
        (ih _ _ (by simp; omega) hleft)
    | comparison hleft hright =>
      exact .comparison (ih _ _ (by simp; omega) hleft) (ih _ _ (by simp; omega) hright)
    | swappedComparison hloose => exact hloose.elim
    | multipleParents h =>
      refine .multipleParents (forall₂_imp (fun s hs s' hs' hss' => ih s s' ?_ hss') h)
      rw [add_comm (sizeOf (TreeNode.multipleParents _))]
      exact sizeOf_add_lt hs hs'

/-- In the strict sense the two trees may change places. -/
theorem agree_symm {t t' : TreeNode} (h : Agree False t t') : Agree False t' t := by
  induction t, t' using pairInduction with
  | step t t' ih =>
    cases h with
    | constant => exact .constant _
    | address => exact .address _
    | register => exact .register _
    | registerRIP => exact .registerRIP _
    | knownRIP _ hloose => exact hloose.elim
    | physicalRegister reg hwidth => exact .physicalRegister reg (hwidth.imp_left Eq.symm)
    | unary hop hnode =>
      obtain rfl := hop.resolve_right And.left
      exact .unary (.inl rfl) (ih _ _ (by simp; omega) hnode)
    | binary hop hleft hright =>
      obtain rfl := hop.resolve_right And.left
      exact .binary (.inl rfl) (ih _ _ (by simp; omega) hleft) (ih _ _ (by simp; omega) hright)
    | swapped hop hswap hright hleft =>
      obtain rfl := hop.resolve_right And.left
      exact .swapped (.inl rfl) hswap (ih _ _ (by simp; omega) hleft) (ih _ _ (by simp; omega) hright)
    | comparison hleft hright =>
      exact .comparison (ih _ _ (by simp; omega) hleft) (ih _ _ (by simp; omega) hright)
    | swappedComparison hloose => exact hloose.elim
    | @multipleParents parents parents' h =>
      have hsize : ∀ s ∈ parents', ∀ s' ∈ parents, sizeOf s + sizeOf s' <
          sizeOf (TreeNode.multipleParents parents) + sizeOf (TreeNode.multipleParents parents') := fun s hs s' hs' => by
        rw [add_comm (sizeOf (TreeNode.multipleParents parents))]
        exact sizeOf_add_lt hs hs'
      have hboth : ∀ s ∈ parents', ∀ s' ∈ parents, Agree False s s' ↔ Agree False s' s := fun s hs s' hs' =>
        ⟨ih s s' (hsize s hs s' hs'), ih s' s (by rw [add_comm (sizeOf s')]; exact hsize s hs s' hs')⟩
      exact .multipleParents (((forall₂_congr hboth).1 h).flip)

/-! ## Values -/

/-- Trees that agree in the strict sense have one value. -/
theorem value_eq_of_agree {V : Type} {m : Meaning V} (hm : m.Lawful) {t t' : TreeNode} (h : Agree False t t') :
    t.value m = t'.value m := by
  induction t, t' using pairInduction with
  | step t t' ih =>
    cases h with
    | constant => rfl
    | address => rfl
    | register => rfl
    | registerRIP => rfl
    | knownRIP _ hloose => exact hloose.elim
    | physicalRegister reg hwidth => rw [hwidth.resolve_right id]
    | unary hop hnode =>
      obtain rfl := hop.resolve_right And.left
      rw [value, value, ih _ _ (by simp; omega) hnode]
    | binary hop hleft hright =>
      obtain rfl := hop.resolve_right And.left
      rw [value, value, ih _ _ (by simp; omega) hleft, ih _ _ (by simp; omega) hright]
    | swapped hop hswap hright hleft =>
      obtain rfl := hop.resolve_right And.left
      rw [value, value, ih _ _ (by simp; omega) hleft, ih _ _ (by simp; omega) hright]
      exact hm _ (hswap.resolve_right id) _ _
    | comparison hleft hright =>
      rw [value, value, ih _ _ (by simp; omega) hleft, ih _ _ (by simp; omega) hright]
    | swappedComparison hloose => exact hloose.elim
    | @multipleParents parents parents' h =>
      have heq : parents'.map (value m) = parents.map (value m) := by
        rw [← List.forall₂_eq_eq_eq, List.forall₂_map_left_iff, List.forall₂_map_right_iff]
        refine forall₂_imp (fun s hs s' hs' hss' => ih s s' ?_ hss') h
        rw [add_comm (sizeOf (TreeNode.multipleParents parents))]
        exact sizeOf_add_lt hs hs'
      rw [value, value, heq]

theorem agree_of_mk_eq {t t' : TreeNode} (h : Quot.mk (Agree False) t = Quot.mk (Agree False) t') :
    Agree False t t' := by
  have hequiv : Equivalence (Agree False) := ⟨agree_refl, agree_symm, agree_trans⟩
  exact hequiv.eqvGen_iff.1 (Quot.eqvGen_exact h)

/-- The trees up to agreement, as values of themselves. -/
noncomputable def treeMeaning : Meaning (Quot (Agree False)) where
  constant value := .mk _ (.constant value)
  address value := .mk _ (.address value)
  register reg := .mk _ (.register reg)
  registerRIP value := .mk _ (.registerRIP value)
  physicalRegister reg width := .mk _ (.physicalRegister reg width)
  unary op := Quot.map (.unary op) fun _ _ h => .unary (.inl rfl) h
  binary op := Quot.map₂ (.binary op) (fun t _ _ h => .binary (.inl rfl) (agree_refl t) h)
    (fun _ _ t h => .binary (.inl rfl) h (agree_refl t))
  comparison := Quot.map₂ .comparison (fun t _ _ h => .comparison (agree_refl t) h)
    (fun _ _ t h => .comparison h (agree_refl t))
  multipleParents values := .mk _ (.multipleParents (values.map Quot.out))

theorem treeMeaning_lawful : treeMeaning.Lawful := by
  intro op hop a b
  induction a using Quot.ind
  induction b using Quot.ind
  exact Quot.sound (.swapped (.inl rfl) (.inl hop) (agree_refl _) (agree_refl _))

theorem value_treeMeaning (t : TreeNode) : t.value treeMeaning = .mk _ t := by
  induction t using parentsInduction with
  | constant c =>
    rw [value]
    rfl
  | address a =>
    rw [value]
    rfl
  | register reg =>
    rw [value]
    rfl
  | registerRIP c =>
    rw [value]
    rfl
  | physicalRegister reg width =>
    rw [value]
    rfl
  | unary op node ih =>
    rw [value, ih]
    rfl
  | binary op left right ihl ihr =>
    rw [value, ihl, ihr]
    rfl
  | comparison left right ihl ihr =>
    rw [value, ihl, ihr]
    rfl
  | multipleParents parents ih =>
    rw [value]
    refine Quot.sound (Agree.multipleParents ?_)
    rw [List.map_map, List.forall₂_map_right_iff, List.forall₂_same]
    intro parent hparent
    rw [Function.comp_apply, ih parent hparent]
    exact agree_of_mk_eq (Quot.out_eq _).symm

/-- `equal` is an equivalence and trees that it takes for equal have one value, exactly where it does not hold for two
trees that differ: in the order of operands that do not commute, in a width, or in the value of the instruction pointer
that only one of them knows. -/
theorem equal_exact_iff (t t' : TreeNode) :
    (t.equal t = true ∧ (t.equal t' = true → t'.equal t = true) ∧
      (∀ t'', t.equal t' = true → t'.equal t'' = true → t.equal t'' = true) ∧
        (t.equal t' = true → ∀ (V : Type) (m : Meaning V), m.Lawful → t.value m = t'.value m)) ↔
      ¬ (Agree True t t' ∧ ¬ Agree False t t') := by
  simp only [equal_iff_agree]
  constructor
  · rintro ⟨-, -, -, hvalue⟩ ⟨hagree, hnot⟩
    have heq := hvalue hagree _ treeMeaning treeMeaning_lawful
    rw [value_treeMeaning, value_treeMeaning] at heq
    exact hnot (agree_of_mk_eq heq)
  · intro h
    have hstrict : Agree True t t' → Agree False t t' := fun hagree => by_contra fun hnot => h ⟨hagree, hnot⟩
    exact ⟨agree_refl t, fun hagree => agree_loose (agree_symm (hstrict hagree)), fun _ => agree_trans,
      fun hagree _ _ hm => value_eq_of_agree hm (hstrict hagree)⟩

end TreeNode

/-! ## The machine -/

/-- The values on a machine with 64-bit registers, widths in bytes. A comparison is the difference that sets the flags,
and of several parents the first is taken. -/
def machine (registers : DisasmRegister → BitVec 64) (physical : Int → BitVec 64) (memory : BitVec 64 → BitVec 8) :
    Meaning (BitVec 64) where
  constant value := value
  address address := address
  register := registers
  registerRIP value := value
  physicalRegister reg width := ((physical reg).setWidth (8 * width)).setWidth 64
  unary
    | .dereference width, a =>
      (List.range width).foldr (fun i value => value <<< 8 ||| (memory (a + BitVec.ofNat 64 i)).setWidth 64) 0
    | .jump, a => a
    | .signExtendByte, a => (a.setWidth 8).signExtend 64
    | .signExtendHalfWord, a => (a.setWidth 16).signExtend 64
    | .signExtendWord, a => (a.setWidth 32).signExtend 64
    | .unsignedExtendWord, a => (a.setWidth 32).setWidth 64
    | .not, a => ~~~a
  binary
    | .addition, a, b => a + b
    | .subtraction, a, b => a - b
    | .multiplication, a, b => a * b
    | .logicalShiftLeft, a, b => a <<< b
    | .logicalShiftRight, a, b => a >>> b
    | .rotateRight, a, b => a.rotateRight b.toNat
    | .arithmeticShiftRight, a, b => a.sshiftRight b.toNat
    | .and, a, b => a &&& b
    | .or, a, b => a ||| b
    | .xor, a, b => a ^^^ b
    | .dereferenceWithValue _, _, b => b
  comparison a b := a - b
  multipleParents values := values.headD 0

theorem machine_lawful (registers : DisasmRegister → BitVec 64) (physical : Int → BitVec 64)
    (memory : BitVec 64 → BitVec 8) : (machine registers physical memory).Lawful := by
  intro op hop a b
  cases op with
  | addition => exact BitVec.add_comm a b
  | multiplication => exact BitVec.mul_comm a b
  | and => exact BitVec.and_comm a b
  | or => exact BitVec.or_comm a b
  | xor => exact BitVec.xor_comm a b
  | _ => exact hop.elim

/-- Register 0 less register 1, and register 1 less register 0. -/
theorem subtraction_swapped : ¬ ∀ t t' : TreeNode, t.equal t' = true → ∀ registers physical memory,
    t.value (machine registers physical memory) = t'.value (machine registers physical memory) := by
  intro hclaim
  have hequal : (TreeNode.binary .subtraction (.physicalRegister 0 8) (.physicalRegister 1 8)).equal
      (.binary .subtraction (.physicalRegister 1 8) (.physicalRegister 0 8)) = true := by
    simp [TreeNode.equal]
  have hvalue := hclaim _ _ hequal (fun _ => 0) (fun reg => if reg = 0 then 1 else 0) (fun _ => 0)
  simp only [TreeNode.value] at hvalue
  exact absurd hvalue (by decide)

end Egalito.Analysis
