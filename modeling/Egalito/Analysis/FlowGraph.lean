import Egalito.Lib.Run
/-!
# The construction of control-flow graphs

`ControlFlowGraph::construct` of `analysis/controlflow.cpp`: every block becomes a
node, and what its last instruction does becomes links, which are put in at both
ends by hand.
-/

open Egalito.Lib

namespace Egalito.FlowGraph

/-! ## Functions -/

inductive Arch
  | x86_64 | aarch64 | riscv
deriving DecidableEq

/-- Chunks that links go to. Blocks are told by their number in the function; those of other functions have numbers
from the number of blocks on. -/
inductive Target
  | block (b : Nat)
  /-- An instruction of a block. -/
  | instruction (parent : Nat)
  | function (own : Bool)
  | other

structure Link where
  /-- Whether it is a `NormalLink`. -/
  isNormal : Bool
  target : Option Target
  targetAddress : UInt64

/-- What a direct control flow instruction does. -/
inductive Kind
  | jump | conditional | call
deriving DecidableEq

/-- What an instruction without a class of its own does: `ret` with an operand is one. -/
inductive Flow
  | next | return | trap
deriving DecidableEq

inductive Instruction
  | controlFlow (kind : Kind) (mnemonic : String) (link : Option Link) (nonreturn : Bool)
  | indirectJump (mnemonic : String) (jumpTables : List (List (Option Link)))
  | indirectCall
  /-- A jump or call through a word of memory. -/
  | dataLinked (isCall : Bool)
  | returnInstruction
  | breakInstruction
  | other (flow : Flow)

structure Block where
  address : UInt64
  size : UInt64
  init : List Instruction
  last : Instruction
  /-- The offset of the last instruction. -/
  lastOffset : UInt64

def Block.instructions (b : Block) : List Instruction := b.init ++ [b.last]

structure Function where
  blocks : List Block

/-! ## The graph -/

structure ControlFlowLink where
  id : Nat
  offset : UInt32
  followJump : Bool
deriving DecidableEq

structure Node where
  links : List ControlFlowLink
  reverseLinks : List ControlFlowLink

/-- The nodes by their number. -/
abbrev Graph := Nat → Node

def Graph.empty : Graph := fun _ => ⟨[], []⟩

/-- `addLink`, and `addReverseLink` at the other end. -/
def Graph.addLinks (graph : Graph) (id : Nat) (lastOffset : UInt64) (link : ControlFlowLink) : Graph :=
  let graph := Function.update graph id { graph id with links := (graph id).links ++ [link] }
  Function.update graph link.id { graph link.id with
    reverseLinks := (graph link.id).reverseLinks ++ [⟨id, lastOffset.toUInt32, link.followJump⟩] }

/-! ## Mnemonics -/

/-- The jumps that do not fall through. -/
def jumpNames : Arch → List String
  | .x86_64 => ["jmp"]
  | .aarch64 => ["b"]
  | .riscv => ["j", "jr", "c.j", "c.jr"]

/-- The calls that do not when they are marked. -/
def callNames : Arch → List String
  | .x86_64 => ["callq"]
  | .aarch64 => ["bl"]
  | .riscv => ["jal", "jalr", "c.jal", "c.jalr"]

/-- The calls whose targets are not linked. -/
def unlinkedNames : Arch → List String
  | .x86_64 => ["callq"]
  | .aarch64 => ["bl"]
  | .riscv => ["jalr", "jal"]

/-- The indirect jumps that are taken for calls. -/
def indirectCallName : Arch → String
  | .x86_64 => "callq"
  | .aarch64 => "blr"
  | .riscv => "jalr"

/-! ## The construction -/

section Construct

variable (arch : Arch) (f : Function)

/-- A link to an instruction of a block, if the block is in the function. -/
def linkTo (graph : Graph) (id : Nat) (block : Block) (parent : Nat) (targetAddress : UInt64) : Graph :=
  match f.blocks[parent]? with
  | some b => graph.addLinks id block.lastOffset ⟨parent, (targetAddress - b.address).toUInt32, true⟩
  | none => graph

/-- The target of a direct jump. The block of another function is asserted away, and on aarch64 a link to a block is
an exception. -/
def addTarget (graph : Graph) (id : Nat) (block : Block) (link : Link) : Option Graph :=
  match link.target with
  | none => some graph
  | some (.block b) =>
    if b < f.blocks.length then
      if arch = .aarch64 then none else some (graph.addLinks id block.lastOffset ⟨b, 0, true⟩)
    else none
  | some (.instruction parent) => some (linkTo f graph id block parent link.targetAddress)
  | some _ => some graph

/-- One entry of a jump table, with the addresses that were seen. -/
def addEntry (id : Nat) (block : Block) (s : Graph × List UInt64) (entry : Option Link) : Graph × List UInt64 :=
  match entry with
  | none => s
  | some link =>
    if !link.isNormal then s
    else match link.target with
      | none => s
      | some target =>
        if link.targetAddress ∈ s.2 then s
        else match target with
          | .instruction parent => (linkTo f s.1 id block parent link.targetAddress, link.targetAddress :: s.2)
          | _ => (s.1, link.targetAddress :: s.2)

def addJumpTable (id : Nat) (block : Block) (graph : Graph) (table : List (Option Link)) : Graph :=
  (table.foldl (addEntry f id block) (graph, [])).1

/-- The links of the last instruction, and whether it falls through. -/
def addJumps (graph : Graph) (id : Nat) (block : Block) : Option (Graph × Bool) :=
  match block.last with
  | .controlFlow _ mnemonic link nonreturn => do
    let fallThrough := mnemonic ∉ jumpNames arch ∧ ¬ (mnemonic ∈ callNames arch ∧ nonreturn = true)
    let graph ← match link with
      | some link => if mnemonic ∉ unlinkedNames arch then addTarget arch f graph id block link else some graph
      | none => some graph
    return (graph, fallThrough)
  | .indirectJump mnemonic jumpTables =>
    if mnemonic = indirectCallName arch then some (graph, true)
    else some (jumpTables.foldl (addJumpTable f id block) graph, false)
  | .returnInstruction => some (graph, false)
  | .breakInstruction => some (graph, false)
  | _ => some (graph, true)

def constructBlock (graph : Graph) (id : Nat) : Option Graph := do
  let block ← f.blocks[id]?
  let (graph, fallThrough) ← addJumps arch f graph id block
  if fallThrough ∧ id + 1 < f.blocks.length then return graph.addLinks id block.lastOffset ⟨id + 1, 0, false⟩
  else return graph

def construct : Option Graph := (List.range f.blocks.length).foldlM (constructBlock arch f) .empty

end Construct

/-! ## What a graph is to have -/

section Spec

variable (f : Function)

def Block.contains (b : Block) (address : UInt64) : Prop :=
  b.address.toNat ≤ address.toNat ∧ address.toNat < b.address.toNat + b.size.toNat

/-- A link goes to a block of the function. Without a target its address decides, and the function itself is its
first block. -/
def GoesTo (link : Link) (b : Nat) : Prop :=
  b < f.blocks.length ∧ match link.target with
    | some (.block target) => target = b
    | some (.instruction parent) => parent = b
    | some (.function own) => own = true ∧ b = 0
    | some .other => False
    | none => ∃ block, f.blocks[b]? = some block ∧ block.contains link.targetAddress

/-- An instruction jumps to a block of the function, directly or by an entry of a jump table. -/
def JumpsTo (i : Instruction) (b : Nat) : Prop :=
  match i with
  | .controlFlow kind _ (some link) _ => kind ≠ .call ∧ GoesTo f link b
  | .indirectJump _ jumpTables => ∃ table ∈ jumpTables, ∃ link, some link ∈ table ∧ GoesTo f link b
  | _ => False

/-- The next instruction can follow. -/
def Falls : Instruction → Prop
  | .controlFlow kind _ _ nonreturn => kind = .conditional ∨ kind = .call ∧ nonreturn = false
  | .indirectCall => True
  | .dataLinked isCall => isCall = true
  | .other flow => flow = .next
  | _ => False

/-- An unconditional jump, a return or a call that is marked not to return. -/
def Leaves : Instruction → Prop
  | .controlFlow kind _ _ nonreturn => kind = .jump ∨ kind = .call ∧ nonreturn = true
  | .indirectJump _ _ => True
  | .dataLinked isCall => isCall = false
  | .returnInstruction => True
  | .other flow => flow = .return
  | _ => False

variable (arch : Arch)

structure Right (graph : Graph) : Prop where
  mirrored : ∀ a b, (graph a).links.countP (·.id = b) = (graph b).reverseLinks.countP (·.id = a)
  jumps : ∀ a block, f.blocks[a]? = some block → ∀ i ∈ block.instructions, ∀ b, JumpsTo f i b →
    ∃ link ∈ (graph a).links, link.id = b ∧ link.followJump = true
  falls : ∀ a block, f.blocks[a]? = some block → a + 1 < f.blocks.length → Falls block.last →
    ∃ link ∈ (graph a).links, link.id = a + 1 ∧ link.followJump = false
  leaves : ∀ a block, f.blocks[a]? = some block → Leaves block.last → ∀ link ∈ (graph a).links, link.followJump = true

/-! ## When it has it -/

/-- The link of an entry that the construction looks at. -/
def Link.Counts (link : Link) : Prop := link.isNormal = true ∧ link.target.isSome = true

instance (link : Link) : Decidable link.Counts := inferInstanceAs (Decidable (_ ∧ _))

/-- The link is the first one of the table with its address, and that is none of those seen before. -/
def FirstOf (table : List (Option Link)) (added : List UInt64) (link : Link) : Prop :=
  ∃ front back, table = front ++ some link :: back ∧ link.Counts ∧ link.targetAddress ∉ added ∧
    ∀ l : Link, some l ∈ front → l.Counts → l.targetAddress ≠ link.targetAddress

/-- The first entry with some address goes to an instruction of the block. -/
def FirstEntry (table : List (Option Link)) (b : Nat) : Prop :=
  ∃ link, FirstOf table [] link ∧ link.target = some (.instruction b)

/-- The last instruction of a block has a link to a block that the construction follows. -/
def Linked (i : Instruction) (b : Nat) : Prop :=
  match i with
  | .controlFlow _ mnemonic (some link) _ =>
    mnemonic ∉ unlinkedNames arch ∧ (link.target = some (.block b) ∨ link.target = some (.instruction b))
  | .indirectJump mnemonic jumpTables => mnemonic ≠ indirectCallName arch ∧ ∃ table ∈ jumpTables, FirstEntry table b
  | _ => False

/-- The mnemonic of a direct control flow instruction says what it does. -/
def NamedAs (kind : Kind) (mnemonic : String) (nonreturn : Bool) : Prop :=
  match kind with
  | .jump => mnemonic ∈ jumpNames arch ∨ mnemonic ∈ callNames arch ∧ nonreturn = true
  | .conditional => mnemonic ∉ jumpNames arch ∧ ¬ (mnemonic ∈ callNames arch ∧ nonreturn = true)
  | .call => mnemonic ∉ jumpNames arch ∧ nonreturn = false ∨
      (mnemonic ∈ jumpNames arch ∨ mnemonic ∈ callNames arch) ∧ nonreturn = true

/-- The construction sees whether the last instruction of a block falls through: it is no jump through memory and no
return without a class of its own, and its mnemonic says what it does. -/
def SeenToFall : Instruction → Prop
  | .controlFlow kind mnemonic _ nonreturn => NamedAs arch kind mnemonic nonreturn
  | .indirectJump mnemonic _ => mnemonic ≠ indirectCallName arch
  | .dataLinked isCall => isCall = true
  | .other flow => flow ≠ .return
  | _ => True

/-- No direct jump has a link to a block of another function (or to any block, on aarch64). -/
def BlockLinksOwn : Instruction → Prop
  | .controlFlow _ mnemonic (some link) _ => mnemonic ∉ unlinkedNames arch → ∀ b, link.target = some (.block b) →
      b < f.blocks.length ∧ arch ≠ .aarch64
  | _ => True

end Spec

/-! ## Links are put in at both ends -/

section Links

variable {graph : Graph} {id a b : Nat} {lastOffset : UInt64} {link : ControlFlowLink}

theorem links_addLinks : (graph.addLinks id lastOffset link a).links =
    (graph a).links ++ if a = id then [link] else [] := by
  simp only [Graph.addLinks, Function.update_apply]
  split_ifs <;> simp_all

theorem reverseLinks_addLinks : (graph.addLinks id lastOffset link a).reverseLinks =
    (graph a).reverseLinks ++ if a = link.id then [⟨id, lastOffset.toUInt32, link.followJump⟩] else [] := by
  simp only [Graph.addLinks, Function.update_apply]
  split_ifs <;> simp_all

def Mirrored (graph : Graph) : Prop :=
  ∀ a b, (graph a).links.countP (·.id = b) = (graph b).reverseLinks.countP (·.id = a)

theorem Mirrored.addLinks (h : Mirrored graph) : Mirrored (graph.addLinks id lastOffset link) := by
  intro a b
  rw [links_addLinks, reverseLinks_addLinks, List.countP_append, List.countP_append, h a b]
  congr 1
  by_cases ha : a = id <;> by_cases hb : b = link.id <;> simp [ha, hb, eq_comm]

/-- A loop of links at one block. -/
def addAll (graph : Graph) (id : Nat) (lastOffset : UInt64) (links : List ControlFlowLink) : Graph :=
  links.foldl (fun g link => g.addLinks id lastOffset link) graph

variable {links : List ControlFlowLink}

theorem links_addAll : (addAll graph id lastOffset links a).links =
    (graph a).links ++ if a = id then links else [] := by
  induction links generalizing graph with
  | nil => simp [addAll]
  | cons link links ih =>
    rw [addAll, List.foldl_cons, ← addAll, ih, links_addLinks, List.append_assoc]
    split <;> rfl

theorem Mirrored.addAll (h : Mirrored graph) : Mirrored (addAll graph id lastOffset links) := by
  induction links generalizing graph with
  | nil => exact h
  | cons link links ih => exact ih h.addLinks

theorem addAll_append {links' : List ControlFlowLink} :
    addAll graph id lastOffset (links ++ links') = addAll (addAll graph id lastOffset links) id lastOffset links' :=
  List.foldl_append

end Links

/-! ## The links of one block -/

section BlockLinks

variable (arch : Arch) (f : Function)

/-- The link to an instruction of a block. -/
def linkOf (parent : Nat) (targetAddress : UInt64) : List ControlFlowLink :=
  match f.blocks[parent]? with
  | some b => [⟨parent, (targetAddress - b.address).toUInt32, true⟩]
  | none => []

def targetLinks (link : Link) : List ControlFlowLink :=
  match link.target with
  | some (.block b) => [⟨b, 0, true⟩]
  | some (.instruction parent) => linkOf f parent link.targetAddress
  | _ => []

def entryLink (link : Link) : List ControlFlowLink :=
  match link.target with
  | some (.instruction parent) => linkOf f parent link.targetAddress
  | _ => []

def entryLinks : List (Option Link) → List UInt64 → List ControlFlowLink
  | [], _ => []
  | none :: rest, added => entryLinks rest added
  | some link :: rest, added =>
    if link.Counts ∧ link.targetAddress ∉ added then
      entryLink f link ++ entryLinks rest (link.targetAddress :: added)
    else entryLinks rest added

def jumpLinks : Instruction → List ControlFlowLink
  | .controlFlow _ mnemonic (some link) _ => if mnemonic ∉ unlinkedNames arch then targetLinks f link else []
  | .indirectJump mnemonic jumpTables =>
    if mnemonic = indirectCallName arch then [] else jumpTables.flatMap fun table => entryLinks f table []
  | _ => []

def fallThrough : Instruction → Bool
  | .controlFlow _ mnemonic _ nonreturn =>
    mnemonic ∉ jumpNames arch ∧ ¬ (mnemonic ∈ callNames arch ∧ nonreturn = true)
  | .indirectJump mnemonic _ => mnemonic = indirectCallName arch
  | .returnInstruction | .breakInstruction => false
  | _ => true

def blockLinks (id : Nat) (last : Instruction) : List ControlFlowLink :=
  jumpLinks arch f last ++ if fallThrough arch last ∧ id + 1 < f.blocks.length then [⟨id + 1, 0, false⟩] else []

variable {arch f} {graph : Graph} {id : Nat} {block : Block}

theorem linkTo_eq (parent : Nat) (targetAddress : UInt64) : linkTo f graph id block parent targetAddress =
    addAll graph id block.lastOffset (linkOf f parent targetAddress) := by
  unfold linkTo linkOf
  cases f.blocks[parent]? <;> rfl

theorem addEntry_eq (link : Link) (added : List UInt64) : addEntry f id block (graph, added) (some link) =
    if link.Counts ∧ link.targetAddress ∉ added then
      (addAll graph id block.lastOffset (entryLink f link), link.targetAddress :: added)
    else (graph, added) := by
  unfold addEntry entryLink
  cases hn : link.isNormal with
  | false => simp [hn, Link.Counts]
  | true =>
    cases ht : link.target with
    | none => simp [hn, ht, Link.Counts]
    | some target =>
      by_cases ha : link.targetAddress ∈ added
      · simp [hn, ht, ha]
      · cases target <;> simp [hn, ht, ha, Link.Counts, linkTo_eq, addAll]

theorem foldl_addEntry (table : List (Option Link)) (added : List UInt64) :
    (table.foldl (addEntry f id block) (graph, added)).1 =
      addAll graph id block.lastOffset (entryLinks f table added) := by
  induction table generalizing graph added with
  | nil => rfl
  | cons entry table ih =>
    rw [List.foldl_cons]
    cases entry with
    | none => exact ih added
    | some link =>
      rw [addEntry_eq, entryLinks]
      split
      · rw [ih, addAll_append]
      · exact ih added

theorem addJumps_eq (hown : BlockLinksOwn f arch block.last) : addJumps arch f graph id block =
    some (addAll graph id block.lastOffset (jumpLinks arch f block.last), fallThrough arch block.last) := by
  unfold addJumps jumpLinks fallThrough
  cases hlast : block.last with
  | controlFlow kind mnemonic link nonreturn =>
    rw [hlast] at hown
    cases link with
    | none => rfl
    | some link =>
      by_cases hm : mnemonic ∈ unlinkedNames arch
      · simp [hm, addAll]
      · simp only [if_pos hm, addTarget, targetLinks]
        cases ht : link.target with
        | none => rfl
        | some target =>
          cases target with
          | block b =>
            obtain ⟨hb, ha⟩ := hown hm b ht
            simp [hb, ha, addAll]
          | instruction parent => simp [linkTo_eq]
          | function own => rfl
          | other => rfl
  | indirectJump mnemonic jumpTables =>
    by_cases hm : mnemonic = indirectCallName arch
    · simp [hm, addAll]
    · simp only [if_neg hm, decide_eq_false hm, Option.some.injEq, Prod.mk.injEq, and_true]
      clear hlast
      induction jumpTables generalizing graph with
      | nil => rfl
      | cons table tables ih => rw [List.foldl_cons, ih, List.flatMap_cons, addAll_append, addJumpTable, foldl_addEntry]
  | _ => rfl

theorem addJumps_none (hown : ¬ BlockLinksOwn f arch block.last) : addJumps arch f graph id block = none := by
  unfold addJumps
  cases hlast : block.last with
  | controlFlow kind mnemonic link nonreturn =>
    rw [hlast] at hown
    cases link with
    | none => exact absurd trivial hown
    | some link =>
      simp only [BlockLinksOwn] at hown
      push Not at hown
      obtain ⟨hm, b, ht, hb⟩ := hown
      simp only [if_pos hm, addTarget, ht]
      split_ifs with h₁ h₂
      · rfl
      · exact absurd (hb h₁) h₂
      · rfl
  | _ =>
    rw [hlast] at hown
    exact absurd trivial hown

/-- One block of the construction. -/
theorem constructBlock_eq (hblock : f.blocks[id]? = some block) (hown : BlockLinksOwn f arch block.last) :
    constructBlock arch f graph id = some (addAll graph id block.lastOffset (blockLinks arch f id block.last)) := by
  unfold constructBlock blockLinks
  rw [hblock]
  simp only [Option.bind_eq_bind, Option.bind_some, addJumps_eq hown]
  split <;> simp [addAll]

theorem constructBlock_none (hblock : f.blocks[id]? = some block) (hown : ¬ BlockLinksOwn f arch block.last) :
    constructBlock arch f graph id = none := by
  unfold constructBlock
  rw [hblock]
  simp only [Option.bind_eq_bind, Option.bind_some, addJumps_none hown]
  rfl

variable (arch f) in
/-- The blocks that are done have their links, and no other node has any. -/
structure Built (done : List Nat) (graph : Graph) : Prop where
  mirrored : Mirrored graph
  links : ∀ id ∈ done, ∀ block, f.blocks[id]? = some block → (graph id).links = blockLinks arch f id block.last
  rest : ∀ id ∉ done, (graph id).links = []

theorem Built.step {done rest : List Nat} (h : Built arch f done graph)
    (hown : ∀ block ∈ f.blocks, BlockLinksOwn f arch block.last)
    (hrange : List.range f.blocks.length = done ++ id :: rest) :
    ∃ graph', constructBlock arch f graph id = some graph' ∧ Built arch f (done ++ [id]) graph' := by
  have hnodup : (done ++ id :: rest).Nodup := hrange ▸ List.nodup_range
  have hid : id ∉ done := fun h => (List.nodup_append.1 hnodup).2.2 id h id List.mem_cons_self rfl
  have hlt : id < f.blocks.length := by
    rw [← List.mem_range, hrange]
    simp
  have hblock : f.blocks[id]? = some f.blocks[id] := List.getElem?_eq_getElem hlt
  have hconstruct : constructBlock arch f graph id = _ := constructBlock_eq hblock (hown _ (List.getElem_mem hlt))
  refine ⟨_, hconstruct, h.mirrored.addAll, ?_, ?_⟩
  · intro j hj block hj'
    rw [links_addAll]
    rcases List.mem_append.1 hj with hj | hj
    · rw [if_neg (ne_of_mem_of_not_mem hj hid), List.append_nil, h.links j hj block hj']
    · obtain rfl := List.mem_singleton.1 hj
      cases hblock.symm.trans hj'
      rw [if_pos rfl, h.rest _ hid, List.nil_append]
  · intro j hj
    have hj' : j ∉ done ∧ j ≠ id := by simpa using hj
    rw [links_addAll, if_neg hj'.2, List.append_nil, h.rest j hj'.1]

/-- The whole construction: every node has the links of its block, and the graph is mirrored. -/
theorem construct_spec (hown : ∀ block ∈ f.blocks, BlockLinksOwn f arch block.last) :
    ∃ graph, construct arch f = some graph ∧ Mirrored graph ∧
      ∀ id block, f.blocks[id]? = some block → (graph id).links = blockLinks arch f id block.last := by
  have hempty : Built arch f [] .empty := ⟨fun _ _ => rfl, fun _ h => absurd h List.not_mem_nil, fun _ _ => rfl⟩
  have hstep : ∀ done id rest graph, List.range f.blocks.length = done ++ id :: rest → Built arch f done graph →
      ∃ graph', constructBlock arch f graph id = some graph' ∧ Built arch f (done ++ [id]) graph' :=
    fun _ _ _ _ hrange h => h.step hown hrange
  obtain ⟨graph, hrun, hbuilt⟩ := foldlM_total_done (Built arch f) hstep hempty
  have hlinks : ∀ id block, f.blocks[id]? = some block → (graph id).links = blockLinks arch f id block.last :=
    fun id block hblock => hbuilt.links id (List.mem_range.2 (List.getElem?_eq_some_iff.1 hblock).1) block hblock
  exact ⟨graph, hrun, hbuilt.mirrored, hlinks⟩

/-- A link to the block of another function ends the construction. -/
theorem own_of_construct {graph : Graph} (h : construct arch f = some graph) :
    ∀ block ∈ f.blocks, BlockLinksOwn f arch block.last := by
  intro block hmem
  by_contra hown
  obtain ⟨id, hlt, hid⟩ := List.getElem_of_mem hmem
  obtain ⟨s₁, s₂, hstep⟩ := exists_step_of_foldlM h id (List.mem_range.2 hlt)
  rw [constructBlock_none (List.getElem?_eq_some_iff.2 ⟨hlt, hid⟩) hown] at hstep
  cases hstep

end BlockLinks

/-! ## What the links are -/

section Membership

variable {arch : Arch} {f : Function} {b : Nat} {i : Instruction}

theorem mem_linkOf {parent : Nat} {targetAddress : UInt64} :
    (∃ link ∈ linkOf f parent targetAddress, link.id = b) ↔ parent = b ∧ b < f.blocks.length := by
  unfold linkOf
  cases hp : f.blocks[parent]? with
  | none =>
    have := List.getElem?_eq_none_iff.1 hp
    simp only [List.not_mem_nil, false_and, exists_false, false_iff]
    omega
  | some block =>
    have := (List.getElem?_eq_some_iff.1 hp).1
    simp only [List.mem_singleton, exists_eq_left]
    constructor
    · rintro rfl
      exact ⟨rfl, this⟩
    · exact fun h => h.1

section First

variable {table : List (Option Link)} {added : List UInt64} {link : Link}

/-- An entry that does not count leaves the first ones to the rest. -/
theorem firstOf_skip {entry : Option Link} (hnot : ∀ l, entry = some l → ¬ (l.Counts ∧ l.targetAddress ∉ added)) :
    FirstOf (entry :: table) added link ↔ FirstOf table added link := by
  constructor
  · rintro ⟨front, back, heq, hc, ha, hfront⟩
    cases front with
    | nil =>
      obtain ⟨rfl, -⟩ := List.cons.inj heq
      exact absurd ⟨hc, ha⟩ (hnot link rfl)
    | cons e front =>
      obtain ⟨rfl, rfl⟩ := List.cons.inj heq
      exact ⟨front, back, rfl, hc, ha, fun l hl => hfront l (List.mem_cons_of_mem _ hl)⟩
  · rintro ⟨front, back, rfl, hc, ha, hfront⟩
    refine ⟨entry :: front, back, rfl, hc, ha, fun l hl hlc heq => ?_⟩
    rcases List.mem_cons.1 hl with hl | hl
    · exact hnot l hl.symm ⟨hlc, heq ▸ ha⟩
    · exact hfront l hl hlc heq

/-- One that counts is the first with its address. -/
theorem firstOf_take {head : Link} (hc : head.Counts) (ha : head.targetAddress ∉ added) :
    FirstOf (some head :: table) added link ↔ link = head ∨ FirstOf table (head.targetAddress :: added) link := by
  constructor
  · rintro ⟨front, back, heq, hlc, hla, hfront⟩
    cases front with
    | nil =>
      obtain ⟨h, -⟩ := List.cons.inj heq
      exact .inl (Option.some.inj h).symm
    | cons e front =>
      obtain ⟨rfl, rfl⟩ := List.cons.inj heq
      have hne : head.targetAddress ≠ link.targetAddress := hfront head List.mem_cons_self hc
      refine .inr ⟨front, back, rfl, hlc, ?_, fun l hl => hfront l (List.mem_cons_of_mem _ hl)⟩
      exact fun h => (List.mem_cons.1 h).elim (fun h => hne h.symm) hla
  · rintro (rfl | ⟨front, back, rfl, hlc, hla, hfront⟩)
    · exact ⟨[], table, rfl, hc, ha, fun l hl => absurd hl List.not_mem_nil⟩
    · refine ⟨some head :: front, back, rfl, hlc, fun h => hla (List.mem_cons_of_mem _ h), fun l hl hl' heq => ?_⟩
      rcases List.mem_cons.1 hl with hl | hl
      · cases hl
        exact hla (heq ▸ List.mem_cons_self)
      · exact hfront l hl hl' heq

end First

theorem mem_entryLink {link : Link} : (∃ l ∈ entryLink f link, l.id = b) ↔
    b < f.blocks.length ∧ link.target = some (.instruction b) := by
  unfold entryLink
  cases ht : link.target with
  | none => simp
  | some target =>
    cases target with
    | instruction parent => rw [mem_linkOf, and_comm, Option.some.injEq, Target.instruction.injEq]
    | _ => simp

/-- The first entries with addresses that were not seen before. -/
theorem mem_entryLinks {table : List (Option Link)} {added : List UInt64} :
    (∃ l ∈ entryLinks f table added, l.id = b) ↔ b < f.blocks.length ∧
      ∃ link, FirstOf table added link ∧ link.target = some (.instruction b) := by
  induction table generalizing added with
  | nil => simp [entryLinks, FirstOf]
  | cons entry table ih =>
    cases entry with
    | none =>
      have hskip (link : Link) := @firstOf_skip table added link none nofun
      simp only [entryLinks, ih, hskip]
    | some head =>
      by_cases hc : head.Counts ∧ head.targetAddress ∉ added
      · have htake (link : Link) := @firstOf_take table added link head hc.1 hc.2
        simp only [entryLinks, if_pos hc, List.mem_append, or_and_right, exists_or, ih, mem_entryLink, htake,
          exists_eq_left, and_or_left]
      · have hskip (link : Link) := @firstOf_skip table added link (some head) fun l h => Option.some.inj h ▸ hc
        simp only [entryLinks, if_neg hc, ih, hskip]

theorem mem_jumpLinks (hown : BlockLinksOwn f arch i) :
    (∃ link ∈ jumpLinks arch f i, link.id = b) ↔ b < f.blocks.length ∧ Linked arch i b := by
  cases i with
  | controlFlow kind mnemonic link nonreturn =>
    cases link with
    | none => simp [jumpLinks, Linked]
    | some link =>
      simp only [jumpLinks, Linked]
      by_cases hm : mnemonic ∈ unlinkedNames arch
      · simp [hm]
      · simp only [hm, not_false_eq_true, if_true, true_and, targetLinks]
        cases ht : link.target with
        | none => simp
        | some target =>
          cases target with
          | block c =>
            obtain ⟨hc, -⟩ := hown hm c ht
            simp only [List.mem_singleton, exists_eq_left, Option.some.injEq, Target.block.injEq, reduceCtorEq, or_false]
            constructor
            · rintro rfl
              exact ⟨hc, rfl⟩
            · exact fun h => h.2
          | instruction parent =>
            rw [mem_linkOf]
            simp only [Option.some.injEq, reduceCtorEq, Target.instruction.injEq, false_or]
            exact and_comm
          | function own => simp
          | other => simp
  | indirectJump mnemonic jumpTables =>
    simp only [jumpLinks, Linked]
    by_cases hm : mnemonic = indirectCallName arch
    · simp [hm]
    · rw [if_neg hm, and_iff_right hm]
      constructor
      · rintro ⟨link, hlink, hid⟩
        obtain ⟨table, htable, hlink⟩ := List.mem_flatMap.1 hlink
        obtain ⟨hb, hfirst⟩ := mem_entryLinks.1 ⟨link, hlink, hid⟩
        exact ⟨hb, table, htable, hfirst⟩
      · rintro ⟨hb, table, htable, hfirst⟩
        obtain ⟨link, hlink, hid⟩ := mem_entryLinks.2 ⟨hb, hfirst⟩
        exact ⟨link, List.mem_flatMap.2 ⟨table, htable, hlink⟩, hid⟩
  | _ => simp [jumpLinks, Linked]

theorem followJump_linkOf {parent : Nat} {targetAddress : UInt64} {link : ControlFlowLink}
    (h : link ∈ linkOf f parent targetAddress) : link.followJump = true := by
  unfold linkOf at h
  split at h
  · rw [List.mem_singleton.1 h]
  · cases h

theorem followJump_entryLinks {table : List (Option Link)} {added : List UInt64} {link : ControlFlowLink}
    (h : link ∈ entryLinks f table added) : link.followJump = true := by
  induction table generalizing added with
  | nil => cases h
  | cons entry table ih =>
    cases entry with
    | none => exact ih h
    | some l =>
      rw [entryLinks] at h
      split at h
      · rcases List.mem_append.1 h with h | h
        · unfold entryLink at h
          split at h
          · exact followJump_linkOf h
          · cases h
        · exact ih h
      · exact ih h

theorem followJump_jumpLinks {link : ControlFlowLink} (h : link ∈ jumpLinks arch f i) : link.followJump = true := by
  unfold jumpLinks at h
  split at h
  · split at h
    · unfold targetLinks at h
      split at h
      · rw [List.mem_singleton.1 h]
      · exact followJump_linkOf h
      · cases h
    · cases h
  · split at h
    · cases h
    · obtain ⟨table, -, h⟩ := List.mem_flatMap.1 h
      exact followJump_entryLinks h
  · cases h

/-- Of the links of a block those that follow the jump are those of its last instruction. -/
theorem exists_jump_iff {id : Nat} (hown : BlockLinksOwn f arch i) :
    (∃ link ∈ blockLinks arch f id i, link.id = b ∧ link.followJump = true) ↔ b < f.blocks.length ∧ Linked arch i b := by
  rw [← mem_jumpLinks hown]
  constructor
  · rintro ⟨link, hlink, hid, hfollow⟩
    rcases List.mem_append.1 hlink with h | h
    · exact ⟨link, h, hid⟩
    · split at h
      · rw [List.mem_singleton.1 h] at hfollow
        cases hfollow
      · cases h
  · rintro ⟨link, hlink, hid⟩
    exact ⟨link, List.mem_append_left _ hlink, hid, followJump_jumpLinks hlink⟩

theorem exists_fall_iff {id : Nat} : (∃ link ∈ blockLinks arch f id i, link.followJump = false) ↔
    fallThrough arch i = true ∧ id + 1 < f.blocks.length := by
  constructor
  · rintro ⟨link, hlink, hfollow⟩
    rcases List.mem_append.1 hlink with h | h
    · rw [followJump_jumpLinks h] at hfollow
      cases hfollow
    · split at h
      · rename_i hfall
        exact hfall
      · cases h
  · intro h
    exact ⟨_, List.mem_append_right _ (by rw [if_pos h]; exact List.mem_singleton_self _), rfl⟩

/-- The construction is right about falling through exactly when it sees it. -/
theorem seenToFall_iff : SeenToFall arch i ↔
    (Falls i → fallThrough arch i = true) ∧ (Leaves i → fallThrough arch i = false) := by
  cases i with
  | controlFlow kind mnemonic link nonreturn =>
    cases kind <;> cases nonreturn <;>
      by_cases hj : mnemonic ∈ jumpNames arch <;> by_cases hc : mnemonic ∈ callNames arch <;>
      simp [SeenToFall, NamedAs, Falls, Leaves, fallThrough, hj, hc]
  | indirectJump mnemonic jumpTables => simp [SeenToFall, Falls, Leaves, fallThrough]
  | dataLinked isCall => cases isCall <;> simp [SeenToFall, Falls, Leaves, fallThrough]
  | other flow => cases flow <;> simp [SeenToFall, Falls, Leaves, fallThrough]
  | _ => simp [SeenToFall, Falls, Leaves, fallThrough]

end Membership

/-- The construction returns a mirrored graph with a link for every jump, every entry of a jump table and every
possible fall-through, and none behind what leaves, if and only if the last instruction of every block has no link to
a block of another function (on aarch64 to no block), all jumps of the block to blocks of the function are links of
its last instruction that the construction follows, and unless the block is the last one, it sees whether the last
instruction falls through. -/
theorem construct_right_iff (arch : Arch) (f : Function) :
    (∃ graph, construct arch f = some graph ∧ Right f graph) ↔
      ∀ id block, f.blocks[id]? = some block → BlockLinksOwn f arch block.last ∧
        (∀ i ∈ block.instructions, ∀ b, JumpsTo f i b → Linked arch block.last b) ∧
        (id + 1 < f.blocks.length → SeenToFall arch block.last) := by
  have hbound : ∀ i b, JumpsTo f i b → b < f.blocks.length := by
    intro i b h
    unfold JumpsTo at h
    split at h
    · exact h.2.1
    · obtain ⟨_, _, _, _, h⟩ := h
      exact h.1
    · cases h
  constructor
  · rintro ⟨graph, hgraph, hright⟩ id block hblock
    have hown := own_of_construct hgraph
    obtain ⟨graph', hgraph', -, hlinks⟩ := construct_spec hown
    cases hgraph.symm.trans hgraph'
    have hlinks := hlinks id block hblock
    have hown := hown block (List.mem_of_getElem? hblock)
    refine ⟨hown, fun i hi b hb => ?_, fun hnext => seenToFall_iff.2 ⟨fun hfalls => ?_, fun hleaves => ?_⟩⟩
    · have := hright.jumps id block hblock i hi b hb
      rw [hlinks, exists_jump_iff hown] at this
      exact this.2
    · obtain ⟨link, hmem, -, hfollow⟩ := hright.falls id block hblock hnext hfalls
      rw [hlinks] at hmem
      exact (exists_fall_iff.1 ⟨link, hmem, hfollow⟩).1
    · by_contra hfall
      obtain ⟨link, hmem, hfollow⟩ := exists_fall_iff.2 ⟨eq_true_of_ne_false hfall, hnext⟩
      rw [← hlinks] at hmem
      rw [hright.leaves id block hblock hleaves link hmem] at hfollow
      cases hfollow
  · intro h
    have hown : ∀ block ∈ f.blocks, BlockLinksOwn f arch block.last := fun block hmem => by
      obtain ⟨id, hid⟩ := List.getElem?_of_mem hmem
      exact (h id block hid).1
    obtain ⟨graph, hgraph, hmirrored, hlinks⟩ := construct_spec hown
    refine ⟨graph, hgraph, hmirrored, ?_, ?_, ?_⟩
    · intro id block hblock i hi b hb
      rw [hlinks id block hblock, exists_jump_iff (h id block hblock).1]
      exact ⟨hbound i b hb, (h id block hblock).2.1 i hi b hb⟩
    · intro id block hblock hnext hfalls
      have hfall := (seenToFall_iff.1 ((h id block hblock).2.2 hnext)).1 hfalls
      refine ⟨⟨id + 1, 0, false⟩, ?_, rfl, rfl⟩
      rw [hlinks id block hblock]
      exact List.mem_append_right _ (by rw [if_pos ⟨hfall, hnext⟩]; exact List.mem_singleton_self _)
    · intro id block hblock hleaves link hmem
      by_contra hfollow
      rw [hlinks id block hblock] at hmem
      obtain ⟨hfall, hnext⟩ := exists_fall_iff.1 ⟨link, hmem, eq_false_of_ne_true hfollow⟩
      rw [(seenToFall_iff.1 ((h id block hblock).2.2 hnext)).2 hleaves] at hfall
      cases hfall

/-- A jump through memory, and a block behind it. -/
def jumpThroughMemory : Function :=
  ⟨[⟨0x1000, 6, [], .dataLinked false, 0⟩, ⟨0x1006, 1, [], .returnInstruction, 0⟩]⟩

theorem jumpThroughMemory_not_right :
    ¬ ∃ graph, construct .x86_64 jumpThroughMemory = some graph ∧ Right jumpThroughMemory graph := by
  rintro ⟨graph, hgraph, hright⟩
  have hown : ∀ block ∈ jumpThroughMemory.blocks, BlockLinksOwn jumpThroughMemory .x86_64 block.last := by
    simp [jumpThroughMemory, BlockLinksOwn]
  obtain ⟨graph', hgraph', -, hlinks⟩ := construct_spec hown
  cases hgraph.symm.trans hgraph'
  have hmem : (⟨1, 0, false⟩ : ControlFlowLink) ∈ (graph 0).links := by
    rw [hlinks 0 _ rfl]
    decide
  have := hright.leaves 0 _ rfl rfl _ hmem
  cases this

end Egalito.FlowGraph
