import Egalito.Analysis.SccOrder
/-!
# The use-def analysis

`UseDef` of `analysis/usedef.cpp`, for the registers. The analysis visits the
blocks of a function component by component: it joins the definitions that the
preceding blocks expose, and then lets the handler of each instruction use and
define registers. A component of more than one block is visited twice.

The analysis reads of a link only where it leads: a block is entered at its
first instruction.
-/

namespace Egalito.Analysis.UseDef

/-- What a handler asks for, `useReg` or `defReg`. -/
inductive Access (ρ : Type)
  | use (reg : ρ)
  | define (reg : ρ)
deriving DecidableEq

/-- An instruction with what its handler does, in order. There is no handler for every mnemonic. -/
structure Instruction (ρ : Type) where
  isLiteral : Bool
  handler : Option (List (Access ρ))

/-- What `fillState` does for the instruction; literals are passed over. -/
def Instruction.accesses {ρ : Type} (instruction : Instruction ρ) : List (Access ρ) :=
  if instruction.isLiteral then [] else instruction.handler.getD []

/-- A `UDState` stands for the instruction of a block. -/
structure UDState where
  node : Nat
  index : Nat
deriving DecidableEq

/-- A function with its `ControlFlowGraph`, which adds a reverse link for every link. -/
structure Function (ρ : Type) where
  cfg : Graph
  block : Nat → List (Instruction ρ)
  reverseLinks : ∀ n m, n ∈ cfg.links (-1) m ↔ m ∈ cfg.links 1 n

def Function.accesses {ρ : Type} (f : Function ρ) (state : UDState) : List (Access ρ) :=
  match (f.block state.node)[state.index]? with
  | some instruction => instruction.accesses
  | none => []

/-! ## The lists -/

/-- `RefList` and `UseList`, which differ only in what they are for. -/
abbrev RefList (ρ : Type) : Type := ρ → List UDState

/-- A state is listed once. -/
def addState (list : List UDState) (origin : UDState) : List UDState :=
  if origin ∈ list then list else list ++ [origin]

section

variable {ρ : Type} [DecidableEq ρ]

namespace RefList

def empty : RefList ρ := fun _ => []

def set (list : RefList ρ) (reg : ρ) (origin : UDState) : RefList ρ := Function.update list reg [origin]

def add (list : RefList ρ) (reg : ρ) (origin : UDState) : RefList ρ :=
  Function.update list reg (addState (list reg) origin)

end RefList

variable (ρ) in
/-- The working set with the lists of its states; `regSet` is the node whose exposed set is
being built. -/
structure WorkingSet where
  nodeExposedRegSetList : Nat → RefList ρ
  trackPartialUDChains : Bool
  regSet : Nat
  regRefList : UDState → RefList ρ
  regUseList : UDState → RefList ρ

namespace WorkingSet

/-- The constructor; its second argument is false unless given. -/
def make (trackPartial : Bool) : WorkingSet ρ :=
  ⟨fun _ => .empty, trackPartial, 0, fun _ => .empty, fun _ => .empty⟩

def getRegSet (w : WorkingSet ρ) : RefList ρ := w.nodeExposedRegSetList w.regSet

def setRegSet (w : WorkingSet ρ) (list : RefList ρ) : WorkingSet ρ :=
  { w with nodeExposedRegSetList := Function.update w.nodeExposedRegSetList w.regSet list }

/-- Adds what a preceding node exposes, register by register. -/
def addExposed (w : WorkingSet ρ) (target : Nat) : WorkingSet ρ :=
  w.setRegSet fun reg => (w.nodeExposedRegSetList target reg).foldl addState (w.getRegSet reg)

/-- The set of the node is cleared first. -/
def transitionTo (f : Function ρ) (node : Nat) (w : WorkingSet ρ) : WorkingSet ρ :=
  (f.cfg.links (-1) node).foldl addExposed (({ w with regSet := node } : WorkingSet ρ).setRegSet .empty)

/-- `state->addRegRef(reg, o); o->addRegUse(reg, state)`. -/
def addRegRef (state : UDState) (reg : ρ) (w : WorkingSet ρ) (o : UDState) : WorkingSet ρ :=
  { w with
    regRefList := Function.update w.regRefList state ((w.regRefList state).add reg o)
    regUseList := Function.update w.regUseList o ((w.regUseList o).add reg state) }

def defReg (w : WorkingSet ρ) (state : UDState) (reg : ρ) : WorkingSet ρ := w.setRegSet (w.getRegSet.set reg state)

def useReg (w : WorkingSet ρ) (state : UDState) (reg : ρ) : WorkingSet ρ :=
  if (w.getRegSet reg).isEmpty && w.trackPartialUDChains then w.defReg state reg
  else (w.getRegSet reg).foldl (addRegRef state reg) w

def access (state : UDState) (w : WorkingSet ρ) : Access ρ → WorkingSet ρ
  | .use reg => w.useReg state reg
  | .define reg => w.defReg state reg

end WorkingSet

/-! ## The analysis -/

namespace Function

variable (f : Function ρ)

def fillState (w : WorkingSet ρ) (state : UDState) : WorkingSet ρ :=
  (f.accesses state).foldl (WorkingSet.access state) w

def analyzeNode (w : WorkingSet ρ) (node : Nat) : WorkingSet ρ :=
  (List.range (f.block node).length).foldl (fun w index => f.fillState w ⟨node, index⟩) (w.transitionTo f node)

def analyzeGraph (w : WorkingSet ρ) (order : List Nat) : WorkingSet ρ := order.foldl f.analyzeNode w

def analyze (w : WorkingSet ρ) (order : List (List Nat)) : WorkingSet ρ :=
  order.foldl (fun w o =>
    let w := f.analyzeGraph w o
    if o.length > 1 then f.analyzeGraph w o else w) w

end Function

end

/-! ## Reaching definitions -/

section

variable {ρ : Type}

namespace Function

variable (f : Function ρ)

def Uses (state : UDState) (reg : ρ) : Prop := .use reg ∈ f.accesses state

def Defines (state : UDState) (reg : ρ) : Prop := .define reg ∈ f.accesses state

instance [DecidableEq ρ] (state : UDState) (reg : ρ) : Decidable (f.Uses state reg) :=
  inferInstanceAs (Decidable (_ ∈ _))

instance [DecidableEq ρ] (state : UDState) (reg : ρ) : Decidable (f.Defines state reg) :=
  inferInstanceAs (Decidable (_ ∈ _))

/-- Control flow between the points of a function, without an instruction that defines the register. The
point `(node, index)` is in front of the instruction with that index. -/
inductive Flow (reg : ρ) : Nat × Nat → Nat × Nat → Prop
  | next {node index : Nat} : index < (f.block node).length → ¬ f.Defines ⟨node, index⟩ reg →
      Flow reg (node, index) (node, index + 1)
  | link {node target : Nat} : target ∈ f.cfg.links 1 node → Flow reg (node, (f.block node).length) (target, 0)

/-- The definition of the register in `d` is still there in front of `u`. -/
def Reaches (reg : ρ) (d u : UDState) : Prop :=
  f.Defines d reg ∧ Relation.ReflTransGen (f.Flow reg) (d.node, d.index + 1) (u.node, u.index)

/-- A state in a block that can be reached from the entry. -/
def Reachable (state : UDState) : Prop := Relation.ReflTransGen (f.cfg.Edge 1) 0 state.node

/-- The analysis on `SccOrder::genFull(0)` is exact: every use refers to the definitions that reach it and
to no other, and the two lists agree. -/
def Exact [DecidableEq ρ] : Prop :=
  ∃ order, sccOrder f.cfg 1 true f.cfg.count = some order ∧
    (∀ u reg, f.Reachable u → f.Uses u reg → ∀ d,
      d ∈ (f.analyze (.make false) order).regRefList u reg ↔ f.Reaches reg d u) ∧
    ∀ s d reg, s ∈ (f.analyze (.make false) order).regUseList d reg ↔
      d ∈ (f.analyze (.make false) order).regRefList s reg

end Function

end

end Egalito.Analysis.UseDef
