import Egalito.Transform.Sandbox
import Egalito.Lib.Image
import Egalito.Lib.Run
import Mathlib
/-!
# The generator

`transform/generator.cpp` with a sandbox that writes into a buffer
(`MemoryBufferBacking`), on x86-64: `assignAddresses` gives every function and
PLT trampoline a slot, `generateCode` appends their code to the buffer. Both go
over the functions of a module by their addresses, which are not the same before
and after.
-/

open Egalito.Lib

namespace Egalito.Transform

/-- A function or a PLT trampoline: what its instructions write, and where it was. -/
structure AssignableChunk where
  instructions : List (List UInt8)
  size : UInt64
  original : UInt64
  size_eq : size.toNat = instructions.flatten.length

def AssignableChunk.code (chunk : AssignableChunk) : List UInt8 := chunk.instructions.flatten

structure Module where
  functions : List Nat
  pltList : Option (List Nat)

def Module.plts (m : Module) : List Nat := m.pltList.getD []

/-- The chunks by number; each is in one list of one module. -/
structure Program where
  chunk : Nat → AssignableChunk
  modules : List Module
  nodup : (modules.flatMap fun m => m.functions ++ m.plts).Nodup

def Program.chunks (program : Program) : List Nat := program.modules.flatMap fun m => m.functions ++ m.plts

/-- A region below 2^63: `conductor/setup.cpp` makes the buffers at 0x40000000 or 0, with
0x10000000 bytes. -/
structure MemoryBufferBacking extends SandboxBacking where
  low : base.toNat + size.toNat < 2 ^ 63

/-- `std::sort` by a key: where elements with one key go is not specified. -/
structure StdSort where
  sort : (Nat → UInt64) → List Nat → List Nat
  perm : ∀ key l, (sort key l).Perm l
  sorted : ∀ key l, (sort key l).Pairwise fun a b => (key a).toNat ≤ (key b).toNat

inductive Failure
  | badAlloc | lengthError | nullPosition
  deriving DecidableEq, Repr

/-- The sandbox, and the assigned positions of the chunks. -/
structure GeneratorState where
  alloc : Allocator
  assigned : Nat → Option Slot
  buffer : List UInt8

theorem toNat_two : (2 : UInt64).toNat = 2 ^ 1 := rfl

/-- The allocator with its alignment on x86-64. -/
def bufferAllocator : AllocatorClass := .alignedWatermark ⟨2, 1, toNat_two⟩

section

variable (std : StdSort) (program : Program)

/-- The assigned position if there is one. -/
def getAddress (s : GeneratorState) (c : Nat) : UInt64 :=
  match s.assigned c with
  | some slot => slot.address
  | none => (program.chunk c).original

def pickFunctionOrder (s : GeneratorState) (m : Module) : List Nat :=
  std.sort (getAddress program s) m.functions

/-! ## Addresses -/

def assignAddress (s : GeneratorState) (c : Nat) : Except Failure GeneratorState :=
  match bufferAllocator.allocate s.alloc (program.chunk c).size with
  | (.ok slot, alloc) => .ok { s with alloc, assigned := Function.update s.assigned c (some slot) }
  | (.error .badAlloc, _) => .error .badAlloc

def assignModule (s : GeneratorState) (m : Module) : Except Failure GeneratorState := do
  let s ← (pickFunctionOrder std program s m).foldlM (assignAddress program) s
  match m.pltList with
  | some plts => plts.foldlM (assignAddress program) s
  | none => .ok s

def assignAddresses (s : GeneratorState) : Except Failure GeneratorState :=
  program.modules.foldlM (assignModule std program) s

/-! ## Code -/

/-- `std::string::max_size` -/
def maxSize : Nat := 2 ^ 63 - 1

/-- `std::string::append` -/
def append (s : GeneratorState) (bytes : List UInt8) : Except Failure GeneratorState :=
  if s.buffer.length + bytes.length ≤ maxSize then .ok { s with buffer := s.buffer ++ bytes }
  else .error .lengthError

def addPaddingBytes (s : GeneratorState) (c : Nat) : Except Failure GeneratorState :=
  match s.assigned c with
  | none => .error .nullPosition
  | some slot =>
    if slot.size > (program.chunk c).size then
      append s (List.replicate (slot.size - (program.chunk c).size).toNat 0x90)
    else .ok s

def copyFunction (s : GeneratorState) (c : Nat) : Except Failure GeneratorState := do
  let s ← (program.chunk c).instructions.foldlM append s
  addPaddingBytes program s c

/-- A trampoline is filled up with `hlt` to its own size; too much data is only logged. -/
def fillTrampoline (s : GeneratorState) (expectedSize : UInt64) : Except Failure GeneratorState :=
  let actualSize := UInt64.ofNat s.buffer.length
  if actualSize > expectedSize then .ok s
  else append s (List.replicate (expectedSize - actualSize).toNat 0xf4)

def copyTrampoline (s : GeneratorState) (c : Nat) : Except Failure GeneratorState := do
  let expectedSize := UInt64.ofNat s.buffer.length + (program.chunk c).size
  let s ← (program.chunk c).instructions.foldlM append s
  let s ← fillTrampoline s expectedSize
  addPaddingBytes program s c

def generateModule (s : GeneratorState) (m : Module) : Except Failure GeneratorState := do
  let s ← (pickFunctionOrder std program s m).foldlM (copyFunction program) s
  match m.pltList with
  | some plts => plts.foldlM (copyTrampoline program) s
  | none => .ok s

def generateCode (s : GeneratorState) : Except Failure GeneratorState :=
  program.modules.foldlM (generateModule std program) s

end

/-- The bytes of a chunk, at the place of its slot in the buffer. -/
structure Placed (program : Program) (base : UInt64) (s : GeneratorState) : Prop where
  found : ∀ c ∈ program.chunks, ∃ slot, s.assigned c = some slot ∧ base.toNat ≤ slot.address.toNat ∧
    (s.buffer.drop (slot.address.toNat - base.toNat)).take (program.chunk c).size.toNat = (program.chunk c).code
  apart : ∀ c ∈ program.chunks, ∀ d ∈ program.chunks, c ≠ d → ∀ slot slot' n,
    s.assigned c = some slot → s.assigned d = some slot' →
    ¬ (slot.address.toNat ≤ n ∧ n < slot.address.toNat + (program.chunk c).size.toNat ∧
      slot'.address.toNat ≤ n ∧ n < slot'.address.toNat + (program.chunk d).size.toNat)
  gaps : ∀ n < s.buffer.length,
    (∀ c ∈ program.chunks, ∀ slot, s.assigned c = some slot →
      ¬ (slot.address.toNat ≤ base.toNat + n ∧
        base.toNat + n < slot.address.toNat + (program.chunk c).size.toNat)) →
    s.buffer[n]? = some 0x90

/-- The sandbox before the generator uses it. -/
def GeneratorState.new (backing : SandboxBacking) (assigned : Nat → Option Slot) : GeneratorState :=
  ⟨.new backing, assigned, []⟩

end Egalito.Transform
