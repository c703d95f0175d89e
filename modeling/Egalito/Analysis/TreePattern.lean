import Egalito.Analysis.SlicingTree
import Egalito.Lib.Attempt
/-!
# Tree patterns

The combinators of `analysis/slicingmatch.h`. A pattern is matched against a tree
and adds the nodes it captures to the `TreeCapture` of its caller; alternatives
are tried on the same capture list, and what a failed one has added stays there.
-/

open Egalito.Lib

namespace Egalito.Analysis

/-! ## The classes a node is cast to -/

/-- `TreeNodeUnary` and the classes under it. -/
inductive UnaryClass where
  | unary
  | dereference
  | jump
  | signExtendByte
  | signExtendHalfWord
  | signExtendWord
  | unsignedExtendWord
  | not
deriving DecidableEq, Repr

/-- The classes with a left and a right: `TreeNodeBinary`, the ones under it, and `TreeNodeComparison`. -/
inductive BinaryClass where
  | binary
  | addition
  | subtraction
  | multiplication
  | logicalShiftLeft
  | logicalShiftRight
  | rotateRight
  | arithmeticShiftRight
  | and
  | or
  | xor
  | dereferenceWithValue
  | comparison
deriving DecidableEq, Repr

inductive TreeClass where
  | constant
  | address
  | register
  | registerRIP
  | physicalRegister
  | unary (type : UnaryClass)
  | binary (type : BinaryClass)
  | multipleParents
deriving DecidableEq, Repr

def UnaryNode.getClass : UnaryNode → UnaryClass
  | dereference _ => .dereference
  | jump => .jump
  | signExtendByte => .signExtendByte
  | signExtendHalfWord => .signExtendHalfWord
  | signExtendWord => .signExtendWord
  | unsignedExtendWord => .unsignedExtendWord
  | not => .not

def BinaryNode.getClass : BinaryNode → BinaryClass
  | addition => .addition
  | subtraction => .subtraction
  | multiplication => .multiplication
  | logicalShiftLeft => .logicalShiftLeft
  | logicalShiftRight => .logicalShiftRight
  | rotateRight => .rotateRight
  | arithmeticShiftRight => .arithmeticShiftRight
  | and => .and
  | or => .or
  | xor => .xor
  | dereferenceWithValue _ => .dereferenceWithValue

def UnaryNode.isA (op : UnaryNode) (type : UnaryClass) : Bool :=
  type == .unary || type == op.getClass

def BinaryNode.isA (op : BinaryNode) (type : BinaryClass) : Bool :=
  type == .binary || type == op.getClass

/-- Whether `dynamic_cast<Type *>(node)` gives a node. -/
def TreeNode.isA : TreeNode → TreeClass → Bool
  | constant _, type => type == .constant
  | address _, type => type == .address
  | register _, type => type == .register
  | registerRIP _, type => type == .register || type == .registerRIP
  | physicalRegister .., type => type == .physicalRegister
  | unary op _, .unary type => op.isA type
  | binary op _ _, .binary type => op.isA type
  | comparison _ _, type => type == .binary .comparison
  | multipleParents _, type => type == .multipleParents
  | _, _ => false

/-- The operands, `getLeft()` and `getRight()`, after a successful cast. -/
def TreeNode.operands? (type : BinaryClass) : TreeNode → Option (TreeNode × TreeNode)
  | binary op left right => if op.isA type then some (left, right) else none
  | comparison left right => if type = .comparison then some (left, right) else none
  | _ => none

/-- `getChild()` after a successful cast. -/
def TreeNode.child? (type : UnaryClass) : TreeNode → Option TreeNode
  | unary op node => if op.isA type then some node else none
  | _ => none

/-- `getRegister()` after a cast to `TreeNodeRegister`. -/
def TreeNode.register? : TreeNode → Option DisasmRegister
  | register reg => some reg
  | registerRIP _ => some .rip
  | _ => none

/-- `getRegister()` after a cast to `TreeNodePhysicalRegister`. -/
def TreeNode.physicalRegister? : TreeNode → Option Int
  | physicalRegister reg _ => some reg
  | _ => none

/-- `getValue()` after a cast to `TreeNodeConstant`. -/
def TreeNode.constant? : TreeNode → Option (BitVec 64)
  | constant value => some value
  | _ => none

/-- `getParents()`; other nodes have none. -/
def TreeNode.parents : TreeNode → List TreeNode
  | multipleParents parents => parents
  | _ => []

/-! ## `matches` -/

inductive TreePattern where
  | any
  | terminal (type : TreeClass)
  | atLeastOneParent (type : TreePattern)
  | unary (type : UnaryClass) (subType : TreePattern)
  | binary (type : BinaryClass) (leftType rightType : TreePattern)
  | binaryAnyOrder (type : BinaryClass) (leftType rightType : TreePattern)
  | recursiveBinary (type : BinaryClass) (leftType rightType : TreePattern)
  | capture (type : TreePattern)
  | registerIs (wanted : DisasmRegister)
  | physicalRegisterIs (wanted : Int)
  | constantIs (wanted : BitVec 64)

/-- What the capture list of the caller is. -/
abbrev TreeCapture := List TreeNode

/-- A call of `matches` on a node: the result, and the capture list after it. -/
abbrev Matching := TreeCapture → Bool × TreeCapture

def Matching.test (result : Bool) : Matching := fun capture => (result, capture)

/-- `a && b`. -/
def Matching.and (a b : Matching) : Matching := fun capture =>
  match a capture with
  | (true, capture) => b capture
  | (false, capture) => (false, capture)

/-- `a || b`. -/
def Matching.or (a b : Matching) : Matching := fun capture =>
  match a capture with
  | (true, capture) => (true, capture)
  | (false, capture) => b capture

/-- The loop over the parents, which returns at the first that matches. -/
def Matching.someParent (type : TreeNode → Matching) : List TreeNode → Matching
  | [] => test false
  | parent :: parents => (type parent).or (someParent type parents)

/-- `TreePatternRecursiveBinary`, on matches of `LeftType` and `RightType`. -/
def Matching.recursive (type : BinaryClass) (leftType rightType : TreeNode → Matching) : TreeNode → Matching
  | .binary op left right =>
    if op.isA type then
      ((recursive type leftType rightType left).or (leftType left)).and (rightType right)
    else test false
  | .comparison left right =>
    if type = .comparison then
      ((recursive type leftType rightType left).or (leftType left)).and (rightType right)
    else test false
  | _ => test false

namespace TreePattern

def «matches» : TreePattern → TreeNode → Matching
  | any, _ => .test true
  | terminal type, node => .test (node.isA type)
  | atLeastOneParent type, node => .someParent type.matches node.parents
  | unary type subType, node =>
    match node.child? type with
    | some child => subType.matches child
    | none => .test false
  | binary type leftType rightType, node =>
    match node.operands? type with
    | some (left, right) => (leftType.matches left).and (rightType.matches right)
    | none => .test false
  | binaryAnyOrder type leftType rightType, node =>
    match node.operands? type with
    | some (left, right) =>
      ((leftType.matches left).and (rightType.matches right)).or ((leftType.matches right).and (rightType.matches left))
    | none => .test false
  | recursiveBinary type leftType rightType, node => .recursive type leftType.matches rightType.matches node
  | capture type, node => fun capture =>
    match type.matches node [] with
    | (true, capture2) => (true, capture ++ node :: capture2)
    | (false, _) => (false, capture)
  | registerIs wanted, node => .test (node.register? == some wanted)
  | physicalRegisterIs wanted, node => .test (node.physicalRegister? == some wanted)
  | constantIs wanted, node => .test (node.constant? == some wanted)

end TreePattern

end Egalito.Analysis
