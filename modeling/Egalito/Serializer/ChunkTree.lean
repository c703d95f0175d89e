import Egalito.Archive.ChunkTypes
/-!
# Chunk trees as flat chunks

`ChunkSerializer` with its operations, and `Function::serialize` and
`Function::deserialize`. The chunks are given by their pointers, and a flat chunk
by what is written to it: a count, the id of a chunk, or the bytes of anything
else. The chunks that the reader makes are known by the id of their flat chunk;
their classes are fixed by `instantiate`, before any of them is filled.
-/

namespace Egalito.Serializer.ChunkTree

open Egalito.Archive

/-! ## Chunks -/

/-- What a chunk writes about itself: bytes, or the id of a chunk it points to. -/
inductive Item
  | data (bytes : List UInt8)
  | ref (object : Option Nat)
deriving DecidableEq

/-- A chunk. Besides its child list it may point to the `LibraryList` of a program, the `Library` of a module
or the TLS region of a `DataRegionList`. -/
structure Chunk where
  cls : ChunkClass
  children : List Nat
  attached : Option Nat
  isInit : Bool
  before : List Item
  semantic : List Item
  after : List Item
  size : Nat
  address : Nat

abbrev Memory := Nat → Chunk

/-- The classes that `genericAdd` lets into a child list, by its `dynamic_cast`. -/
def accepts : ChunkClass → ChunkClass → Bool
  | .program, .module => true
  | .module, _ => true
  | .functionList, .function => true
  | .pltList, .pltTrampoline => true
  | .jumpTableList, .jumpTable => true
  | .dataRegionList, .dataRegion => true
  | .dataRegionList, .tlsDataRegion => true
  | .initFunctionList, .initFunction => true
  | .externalSymbolList, .externalSymbol => true
  | .libraryList, .library => true
  | .vtableList, .vtable => true
  | .function, .block => true
  | .block, .instruction => true
  | .pltTrampoline, .block => true
  | .jumpTable, .jumpTableEntry => true
  | .dataRegion, .dataSection => true
  | .tlsDataRegion, .dataSection => true
  | .dataSection, .dataVariable => true
  | .markerList, .marker => true
  | .vtable, .vtableEntry => true
  | _, _ => false

/-! ## Writing -/

inductive Token
  | data (bytes : List UInt8)
  | count (n : Nat)
  | id (id : Option Nat)
deriving DecidableEq

structure Flat where
  type : EgalitoChunkType
  data : List Token
deriving DecidableEq

/-- `ChunkSerializerOperations` with the archive. -/
structure Operations where
  flatList : List (Option Flat)
  nextID : Nat
  assignment : Nat → Option Nat
  localModuleOnly : Bool

namespace Operations

def getNextID (op : Operations) : Nat × Operations := (op.nextID, { op with nextID := op.nextID + 1 })

/-- `addFlatChunk` makes the vector longer where needed. -/
def newFlatChunk (op : Operations) (type : EgalitoChunkType) (id : Nat) : Operations :=
  { op with flatList := (op.flatList ++ List.replicate (id + 1 - op.flatList.length) none).set id (some ⟨type, []⟩) }

def write (op : Operations) (id : Nat) (token : Token) : Operations :=
  { op with flatList := op.flatList.modify id (Option.map fun flat => { flat with data := flat.data ++ [token] }) }

def assign (op : Operations) (object : Nat) : Nat × Operations :=
  match op.assignment object with
  | some id => (id, op)
  | none =>
    let (id, op) := op.getNextID
    (id, { op with assignment := Function.update op.assignment object (some id) })

/-- A null pointer is written as `NoneID`. -/
def writeItem (id : Nat) (op : Operations) : Item → Operations
  | .data bytes => op.write id (.data bytes)
  | .ref none => op.write id (.id none)
  | .ref (some object) =>
    let (i, op) := op.assign object
    op.write id (.id (some i))

def writeItems (op : Operations) (id : Nat) (items : List Item) : Operations := items.foldl (writeItem id) op

/-- The ids of the children, which are written as they are assigned. -/
def assignChildren (id : Nat) : List Nat → Operations → List Nat × Operations
  | [], op => ([], op)
  | child :: children, op =>
    let (i, op) := op.assign child
    let (ids, op) := assignChildren id children (op.write id (.id (some i)))
    (i :: ids, op)

/-- `serializeChildren`; the children are serialized when all ids are assigned. -/
def serializeChildren (serialize : Nat → Nat → Operations → Option Operations) (id : Nat) (children : List Nat)
    (op : Operations) : Option Operations :=
  let (ids, op) := assignChildren id children (op.write id (.count children.length))
  (children.zip ids).foldlM (fun op p => serialize p.1 p.2 op) op

/-- One level of `serializeChildrenIDsOnly`, which makes empty flat chunks. -/
def serializeIDs (memory : Memory) (id : Nat) (op : Operations) (children : List Nat) : Operations :=
  children.foldl (fun op child =>
    let (i, op) := op.assign child
    (op.newFlatChunk (memory child).cls.getFlatType i).write id (.id (some i))) (op.write id (.count children.length))

/-- `Function::serialize`. -/
def serializeFunction (memory : Memory) (id : Nat) (function : Chunk) (op : Operations) : Operations :=
  let op := op.writeItems id function.before
  let op := serializeIDs memory id op function.children
  let op := function.children.foldl (fun op block => serializeIDs memory id op (memory block).children) op
  function.children.foldl (fun op block =>
    (memory block).children.foldl (fun op instr => op.writeItems id (memory instr).semantic)
      (op.write id (.count (memory block).children.length))) (op.write id (.count function.children.length))

end Operations

/-- The classes whose `serialize` writes a child list behind its own data. -/
def writesChildren : ChunkClass → Bool
  | .libraryList | .initFunctionList | .block | .pltTrampoline | .jumpTable | .dataRegion | .tlsDataRegion
  | .dataSection | .vtable => true
  | _ => false

/-- The lists of a module in the order in which they are written, and whether they may be missing. -/
def moduleLists (memory : Memory) (module : Chunk) : List (Option Nat × Bool) :=
  let find (p : Chunk → Bool) : Option Nat := module.children.find? fun child => p (memory child)
  [(find (·.cls == .pltList), false), (find (·.cls == .functionList), false), (find (·.cls == .jumpTableList), false),
    (find (·.cls == .dataRegionList), false), (find (·.cls == .vtableList), true),
    (find fun c => c.cls == .initFunctionList && c.isInit, true),
    (find fun c => c.cls == .initFunctionList && !c.isInit, true), (find (·.cls == .externalSymbolList), false)]

/-- `serialize(chunk, id)` with the `serialize` of the chunk's class. `none` is the use of a null pointer, or a
recursion deeper than the fuel. -/
def serializeChunk (memory : Memory) : Nat → Nat → Nat → Operations → Option Operations
  | 0, _, _, _ => none
  | fuel + 1, chunk, id, op =>
    let c := memory chunk
    let op := op.newFlatChunk c.cls.getFlatType id
    let serializeChildren := Operations.serializeChildren (serializeChunk memory fuel) id c.children
    -- `serialize(chunk)`, which takes the next id without assigning it
    let serializeNew := fun (op : Operations) (list : Nat) =>
      let (i, op) := op.getNextID
      (serializeChunk memory fuel list i op).map fun op => op.write id (.id (some i))
    match c.cls with
    | .program => do
      let op ← serializeNew op (← c.attached)
      let op ← serializeChildren op
      return op.writeItems id c.after
    | .module => do
      let op := (op.writeItems id c.before).writeItem id (.ref c.attached)
      let op ← (moduleLists memory c).foldlM (fun op p =>
        match p with
        | (some list, _) => serializeNew op list
        | (none, optional) => if optional then some (op.write id (.id none)) else none) op
      match op.localModuleOnly, c.attached with
      | true, some library =>
        let (i, op) := op.assign library
        serializeChunk memory fuel library i op
      | _, _ => return op
    | .functionList | .pltList | .jumpTableList | .externalSymbolList | .vtableList => serializeChildren op
    | .dataRegionList => serializeChildren (op.writeItem id (.ref c.attached))
    | .function => some (op.serializeFunction memory id c)
    -- it has no child list
    | .initFunction => none
    | .markerList | .marker => some op
    | cls => do
      let op := op.writeItems id (c.before ++ c.semantic)
      let op ← if writesChildren cls then serializeChildren op else some op
      return op.writeItems id c.after

/-- `ChunkSerializer::serialize` up to the file, which is written when no entry of the list is missing. -/
def serialize (memory : Memory) (fuel root : Nat) : Option (List Flat) := do
  let op ← serializeChunk memory fuel root 0 ⟨[], 1, fun _ => none, (memory root).cls == .module⟩
  op.flatList.mapM id

/-! ## Reading -/

/-- The file keeps the data of a flat chunk, and a code for its type. -/
def readBack (flats : List Flat) : Option (List Flat) :=
  flats.mapM fun flat => (encodeChunkType flat.type).map fun code => { flat with type := decodeChunkType code }

abbrev Classes := List (Option ChunkClass)

/-- What is in a chunk; other chunks are given by their ids. -/
structure Object where
  children : List Nat
  attached : Option Nat
  parent : Option Nat
  previousSibling : Option Nat
  nextSibling : Option Nat
  size : Nat
  address : Nat
deriving DecidableEq

abbrev Heap := Nat → Object

namespace Heap

def empty : Heap := fun _ => ⟨[], none, none, none, none, 0, 0⟩

def modify (heap : Heap) (id : Nat) (f : Object → Object) : Heap := Function.update heap id (f (heap id))

def setSiblings (heap : Heap) (previous next : Nat) : Heap :=
  (heap.modify next fun o => { o with previousSibling := some previous }).modify previous
    fun o => { o with nextSibling := some next }

end Heap

/-- What the reader calls for semantics, and for the chunks of other classes. -/
structure Readers where
  /-- `InstrSerializer::deserialize`: the size of the semantic, and what is left of the data. -/
  semantic : List Token → Option (Nat × List Token)
  deserialize : ChunkClass → Nat → List Token → Heap → Option Heap

def readData : List Token → Option (List UInt8 × List Token)
  | .data bytes :: data => some (bytes, data)
  | _ => none

def readCount : List Token → Option (Nat × List Token)
  | .count n :: data => some (n, data)
  | _ => none

def readID : List Token → Option (Option Nat × List Token)
  | .id id :: data => some (id, data)
  | _ => none

/-- `lookup`; the outer `none` is the failed assertion on the size of the list. -/
def lookup (classes : Classes) : Option Nat → Option (Option ChunkClass)
  | none => some none
  | some id => classes[id]?

/-- The loop that reads ids. A null pointer has no parent to set. -/
def readChildren (classes : Classes) (self : Nat) : Nat → List Token → Heap → Option (List Nat × List Token × Heap)
  | 0, data, heap => some ([], data, heap)
  | count + 1, data, heap => do
    let (id, data) ← readID data
    let child ← id
    let cls ← (← lookup classes id)
    let heap := if accepts ((classes[self]?).join.getD .marker) cls
      then heap.modify self fun o => { o with children := o.children ++ [child] } else heap
    let (ids, data, heap) ← readChildren classes self count data (heap.modify child fun o => { o with parent := some self })
    return (child :: ids, data, heap)

/-- `deserializeChildren`, and one level of `deserializeChildrenIDsOnly`. -/
def deserializeChildren (classes : Classes) (self : Nat) (data : List Token) (heap : Heap) :
    Option (List Nat × List Token × Heap) := do
  let (count, data) ← readCount data
  readChildren classes self count data heap

/-- The instruction with this index of a block. -/
def deserializeInstr (readers : Readers) (block : Nat) (st : List Token × Heap) (i : Nat) :
    Option (List Token × Heap) := do
  let (data, heap) := st
  let instr ← (heap block).children[i]?
  let heap ← if i > 0 then (heap block).children[i - 1]?.map (heap.setSiblings · instr) else some heap
  let (size, data) ← readers.semantic data
  let heap := heap.modify instr fun o =>
    { o with size := size, address := (heap block).address + (heap block).size }
  return (data, heap.modify block fun o => { o with size := o.size + size })

/-- The block with this index of a function. -/
def deserializeBlock (readers : Readers) (self : Nat) (st : List Token × Heap) (b : Nat) :
    Option (List Token × Heap) := do
  let (data, heap) := st
  let block ← (heap self).children[b]?
  let heap := heap.modify block fun o => { o with address := (heap self).address + (heap self).size }
  let heap ← if b > 0 then (heap self).children[b - 1]?.map (heap.setSiblings · block) else some heap
  let (instrCount, data) ← readCount data
  let (data, heap) ← (List.range instrCount).foldlM (deserializeInstr readers block) (data, heap)
  return (data, heap.modify self fun o => { o with size := o.size + (heap block).size })

/-- `Function::deserialize`. -/
def deserializeFunction (readers : Readers) (classes : Classes) (self : Nat) (data : List Token) (heap : Heap) :
    Option Heap := do
  let (address, data) ← readData data
  let (_name, data) ← readData data
  let (_nonreturn, data) ← readData data
  let (_ifunc, data) ← readData data
  let (compressedMode, data) ← readData data
  let heap := heap.modify self fun o => { o with address := address.foldr (fun b n => b.toNat + 256 * n) 0 }
  let (ids, data, heap) ← deserializeChildren classes self data heap
  if compressedMode = [0] then return heap
  else
    let (data, heap) ← ids.foldlM (fun (st : List Token × Heap) child => do
      let (_, data, heap) ← deserializeChildren classes child st.1 st.2
      return (data, heap)) (data, heap)
    let (blockCount, data) ← readCount data
    let (_, heap) ← (List.range blockCount).foldlM (deserializeBlock readers self) (data, heap)
    return heap

/-- `deserialize` of one flat chunk, with the `deserialize` of the class that was instantiated for it. -/
def deserializeFlat (readers : Readers) (classes : Classes) (id : Nat) (flat : Flat) (heap : Heap) : Option Heap := do
  match (classes[id]?).join with
  -- only a warning
  | none => return heap
  | some .functionList | some .pltList | some .jumpTableList =>
    return (← deserializeChildren classes id flat.data heap).2.2
  | some .dataRegionList =>
    let (tls, data) ← readID flat.data
    let cls ← lookup classes tls
    let heap := heap.modify id fun o => { o with attached := if cls = some .tlsDataRegion then tls else none }
    return (← deserializeChildren classes id data heap).2.2
  | some .function => deserializeFunction readers classes id flat.data heap
  | some cls => readers.deserialize cls id flat.data heap

/-- `ChunkSerializer::deserialize`: all chunks are instantiated, and then filled from the last one on. -/
def deserialize (readers : Readers) (flats : List Flat) : Option (Classes × Heap) := do
  let classes ← flats.mapM fun flat => instantiate flat.type
  let heap ← flats.zipIdx.reverse.foldlM (fun heap p => deserializeFlat readers classes p.2 p.1 heap) Heap.empty
  return (classes, heap)

/-! ## Trees -/

/-- The chunks below a chunk. The library of a module is written with it when the module is the root. -/
def parts (memory : Memory) (root chunk : Nat) : List Nat :=
  let c := memory chunk
  c.children ++
    if c.cls = .program ∨ c.cls = .module ∧ (memory root).cls = .module then c.attached.toList else []

def InTree (memory : Memory) (root : Nat) : Nat → Prop :=
  Relation.ReflTransGen (fun chunk part => part ∈ parts memory root chunk) root

/-- Child lists are typed, and so are the pointers of a program. -/
structure ChunkTree where
  memory : Memory
  root : Nat
  children : ∀ a, InTree memory root a → ∀ b ∈ (memory a).children, accepts (memory a).cls (memory b).cls
  libraryList : ∀ a, InTree memory root a → (memory a).cls = .program → ∀ l ∈ (memory a).attached,
    (memory l).cls = .libraryList

/-- The children of a chunk point to it and to each other, and are where and as large as they were. -/
def Linked (memory : Memory) (heap : Heap) (place : Nat → Nat) (a : Nat) : Prop :=
  ∀ k b, (memory a).children[k]? = some b →
    (heap (place b)).parent = some (place a) ∧
    (heap (place b)).previousSibling = (if k = 0 then none else (memory a).children[k - 1]?.map place) ∧
    (heap (place b)).nextSibling = (memory a).children[k + 1]?.map place ∧
    (heap (place b)).size = (memory b).size ∧ (heap (place b)).address = (memory b).address

/-- What was made for a chunk of the tree; `place` is the id of the chunk that takes its place. -/
structure Rebuilt (memory : Memory) (classes : Classes) (heap : Heap) (place : Nat → Nat) (a : Nat) : Prop where
  cls : classes[place a]? = some (some (memory a).cls)
  children : (heap (place a)).children = (memory a).children.map place
  attached : (memory a).cls = .program → (heap (place a)).attached = (memory a).attached.map place
  function : (memory a).cls = .function → (heap (place a)).size = (memory a).size ∧
    (heap (place a)).address = (memory a).address ∧ Linked memory heap place a ∧
    ∀ b ∈ (memory a).children, Linked memory heap place b

/-- The chunks that were made form the same tree, with the first one as its root. -/
def SameTree (t : ChunkTree) (classes : Classes) (heap : Heap) : Prop :=
  ∃ place : Nat → Nat, place t.root = 0 ∧ Set.InjOn place {a | InTree t.memory t.root a} ∧
    ∀ a, InTree t.memory t.root a → Rebuilt t.memory classes heap place a

/-- The tree is written, and what is read back is the same tree. -/
def RoundTrips (readers : Readers) (t : ChunkTree) : Prop :=
  ∃ fuel flats flats' classes heap, serialize t.memory fuel t.root = some flats ∧ readBack flats = some flats' ∧
    deserialize readers flats' = some (classes, heap) ∧ SameTree t classes heap

end Egalito.Serializer.ChunkTree
