import Mathlib.Tactic
/-!
# Expression trees

The nodes of `analysis/slicingtree.h` and their virtual method `equal`, which
compares a node with what a `dynamic_cast` of the other one gives. A tree has a
value once the registers, the memory and the operators have a meaning.
-/

namespace Egalito.Analysis

/-! ## Nodes -/

/-- The register numbers of the disassembler; one of them is the instruction pointer. -/
inductive DisasmRegister where
  | rip
  | other (number : Nat)
deriving DecidableEq, Repr

/-- The classes under `TreeNodeUnary`. -/
inductive UnaryNode where
  | dereference (width : Nat)
  | jump
  | signExtendByte
  | signExtendHalfWord
  | signExtendWord
  | unsignedExtendWord
  | not
deriving DecidableEq, Repr

/-- The classes under `TreeNodeBinary`. -/
inductive BinaryNode where
  | addition
  | subtraction
  | multiplication
  | logicalShiftLeft
  | logicalShiftRight
  | rotateRight
  | arithmeticShiftRight
  | and
  | or
  | xor
  | dereferenceWithValue (width : Nat)
deriving DecidableEq, Repr

inductive TreeNode where
  | constant (value : BitVec 64)
  | address (address : BitVec 64)
  | register (reg : DisasmRegister)
  | registerRIP (value : BitVec 64)
  | physicalRegister (reg : Int) (width : Nat)
  | unary (op : UnaryNode) (node : TreeNode)
  | binary (op : BinaryNode) (left right : TreeNode)
  | comparison (left right : TreeNode)
  | multipleParents (parents : List TreeNode)
deriving Repr

def UnaryNode.getName : UnaryNode → String
  | dereference _ => "deref"
  | jump => "jump"
  | signExtendByte => "sxtb"
  | signExtendHalfWord => "sxth"
  | signExtendWord => "sxtw"
  | unsignedExtendWord => "uxtw"
  | not => "~"

def BinaryNode.getOperator : BinaryNode → String
  | addition => "+"
  | subtraction => "-"
  | multiplication => "*"
  | logicalShiftLeft => "<<"
  | logicalShiftRight => ">>"
  | rotateRight => "r>>"
  | arithmeticShiftRight => "a>>"
  | and => "&"
  | or => "|"
  | xor => "^"
  | dereferenceWithValue _ => "deref="

namespace TreeNode

/-- An induction with one hypothesis for all the parents of a node. -/
@[elab_as_elim]
theorem parentsInduction {P : TreeNode → Prop} (constant : ∀ value, P (.constant value))
    (address : ∀ value, P (.address value)) (register : ∀ reg, P (.register reg))
    (registerRIP : ∀ value, P (.registerRIP value)) (physicalRegister : ∀ reg width, P (.physicalRegister reg width))
    (unary : ∀ op node, P node → P (.unary op node))
    (binary : ∀ op left right, P left → P right → P (.binary op left right))
    (comparison : ∀ left right, P left → P right → P (.comparison left right))
    (multipleParents : ∀ parents, (∀ parent ∈ parents, P parent) → P (.multipleParents parents)) (t : TreeNode) : P t :=
  @TreeNode.rec P (fun parents => ∀ parent ∈ parents, P parent) constant address register registerRIP physicalRegister
    unary binary comparison multipleParents (by simp) (fun _ _ hhead htail => List.forall_mem_cons.2 ⟨hhead, htail⟩) t

/-! ## `equal` -/

mutual

/-- `t.equal(t')`: the class of `t` chooses the method, and casts `t'`. A `TreeNodeRegisterRIP` is a
`TreeNodeRegister`. -/
def equal : TreeNode → TreeNode → Bool
  | constant value, constant value' => value == value'
  | address value, address value' => value == value'
  | register reg, register reg' => reg == reg'
  | register reg, registerRIP _ => reg == .rip
  | registerRIP value, registerRIP value' => value == value'
  | physicalRegister reg _, physicalRegister reg' _ => reg == reg'
  | unary op node, unary op' node' => op.getName == op'.getName && node.equal node'
  | binary op left right, binary op' left' right' =>
    op.getOperator == op'.getOperator &&
      ((left.equal left' && right.equal right') || (right.equal left' && left.equal right'))
  | comparison left right, comparison left' right' =>
    (left.equal left' && right.equal right') || (right.equal left' && left.equal right')
  | multipleParents parents, multipleParents parents' => equalParents parents' parents
  | _, _ => false
termination_by t t' => sizeOf t + sizeOf t'

/-- The loop over both lists, which have to be equally long. The parents of the other node are asked. -/
def equalParents : List TreeNode → List TreeNode → Bool
  | [], [] => true
  | t :: ts, t' :: ts' => t.equal t' && equalParents ts ts'
  | _, _ => false
termination_by ts ts' => sizeOf ts + sizeOf ts'

end

end TreeNode

/-! ## Use-def graphs

What the searches over use-def chains read of the `UDState`s: the definitions of
a state, the states whose definitions it references, and the states that use its own.
-/

/-- A `DefList`, a `std::map` by register; a tree may be null. -/
abbrev DefList := List (Int × Option TreeNode)

structure UseDefGraph (State : Type) where
  getRegDefList : State → DefList
  getRegRef : State → Int → List State
  getRegUse : State → Int → List State

variable {State : Type}

/-- `DefList::get`. -/
def UseDefGraph.getRegDef (graph : UseDefGraph State) (state : State) (reg : Int) : Option TreeNode :=
  ((graph.getRegDefList state).lookup reg).join

/-- A tree that is one physical register, as after a register move. -/
def TreeNode.isRegister (reg : Int) : TreeNode → Bool
  | physicalRegister r _ => r == reg
  | _ => false

end Egalito.Analysis
