import Egalito.Serializer.LinkTheorems
/-!
# Data variables

`DataVariable::serialize` and `deserialize` of `chunk/dataregion.cpp`. The
writer leaves the destination link out in the local-module mode; the reader has
one list of fields for both modes.
-/

open Egalito.Lib Egalito.Archive

namespace Egalito.Serializer

/-- The position is an `AbsoluteOffsetPosition`: an offset from the parent. -/
structure DataVariable where
  parent : Option ChunkId
  offset : UInt64
  name : List UInt8
  dest : Link
  size : UInt64
deriving DecidableEq

namespace DataVariable

variable (tree : Tree) (lookup : UInt32 → Option (Option ChunkId))

def serializeDest (localModuleOnly : Bool) (dest : Link) : StateM IDOperations (List UInt8) :=
  -- not yet implemented for local modules, says the source
  if localModuleOnly then return [] else dest.serialize tree

def serialize (localModuleOnly : Bool) (var : DataVariable) : StateM IDOperations (List UInt8) := do
  let parent ← assign var.parent
  let dest ← serializeDest tree localModuleOnly var.dest
  return writeU32 parent ++ (writeU64 var.offset ++ (writeString var.name ++ (dest ++ writeU64 var.size)))

/-- The variable read, and the return value. -/
def deserialize : Reader (DataVariable × Bool) := do
  let parent ← deserializeLinkTarget lookup
  let offset ← readU64
  let name ← readString
  let dest ← deserializeLink tree lookup
  let size ← readU64
  let good ← Reader.stillGood
  return (⟨parent, offset, name, dest, size⟩, good)

/-- What `deserialize` does after the name. -/
def deserializeRest (parent : Option ChunkId) (offset : UInt64) (name : List UInt8) :
    Reader (DataVariable × Bool) := do
  let dest ← deserializeLink tree lookup
  let size ← readU64
  let good ← Reader.stillGood
  return (⟨parent, offset, name, dest, size⟩, good)

/-- The same name, position, size and destination link. -/
structure Same (var back : DataVariable) : Prop where
  name : var.name = back.name
  parent : var.parent = back.parent
  offset : var.offset = back.offset
  size : var.size = back.size
  dest : SameTarget tree var.dest back.dest ∧ SameAttributes var.dest back.dest

/-- `deserialize` takes exactly what `serialize` wrote, and restores the variable. -/
def RoundTrips (op : IDOperations) (localModuleOnly : Bool) (var : DataVariable) : Prop :=
  ∃ back, Reads (deserialize tree lookup) (var.serialize tree localModuleOnly op).1 (back, true) ∧
    Same tree var back

variable {tree : Tree} {lookup : UInt32 → Option (Option ChunkId)} {op : IDOperations} {var back : DataVariable}

/-! ## Reading it back -/

theorem serialize_subset (localModuleOnly : Bool) :
    (assign var.parent op).2.assignment ⊆ (var.serialize tree localModuleOnly op).2.assignment := by
  cases localModuleOnly with
  | false => exact Serializer.serialize_subset tree var.dest (assign var.parent op).2
  | true => exact List.Subset.refl _

/-- Reading a variable back reads its parent and offset, the name up to a NUL, and
goes on from there. -/
theorem deserialize_eq {localModuleOnly : Bool}
    (hop : Restores (var.serialize tree localModuleOnly op).2 lookup) :
    ∃ extra, (0 ∉ var.name → extra = []) ∧
      deserialize tree lookup ⟨(var.serialize tree localModuleOnly op).1, true⟩ =
        deserializeRest tree lookup var.parent var.offset (var.name.takeWhile (· != 0))
          ⟨extra ++ ((serializeDest tree localModuleOnly var.dest (assign var.parent op).2).1 ++
            writeU64 var.size), true⟩ := by
  obtain ⟨used, extra, hname, hread, hnul⟩ := reads_readString_cut var.name
  refine ⟨extra, hnul, ?_⟩
  have hser : (var.serialize tree localModuleOnly op).1 = writeU32 (assign var.parent op).1 ++
      (writeU64 var.offset ++ (used ++ (extra ++
        ((serializeDest tree localModuleOnly var.dest (assign var.parent op).2).1 ++ writeU64 var.size)))) := by
    rw [← List.append_assoc used, ← hname]
    rfl
  rw [hser, deserialize, (reads_deserializeLinkTarget (hop.mono (serialize_subset _))).run_bind,
    (reads_readU64 _).run_bind, hread.run_bind]
  rfl

/-- Eight bytes do not hold a link and a size. -/
theorem deserializeRest_local_ne (parent : Option ChunkId) (offset : UInt64) (name : List UInt8) (size : UInt64)
    (result : DataVariable × Bool) :
    deserializeRest tree lookup parent offset name ⟨writeU64 size, true⟩ ≠ some (result, ⟨[], true⟩) := by
  intro h
  have htakes : Takes (deserializeRest tree lookup parent offset name) (fun _ k => 9 ≤ k) := by
    refine takes_deserializeLink.bind fun dest => takes_readU64.bind fun size =>
      takes_stillGood.bind_pure ?_
    rintro good _ ⟨-, rfl⟩ _ rfl k hk
    cases hk <;> omega
  obtain ⟨-, k, hk, hlen⟩ := htakes _ _ _ h rfl
  simp only [writeU64, length_leBytes, List.length_nil] at hlen
  omega

theorem deserializeRest_inv {parent : Option ChunkId} {offset : UInt64} {name : List UInt8} {s rest : Lib.Stream}
    {good : Bool} (h : deserializeRest tree lookup parent offset name s = some ((back, good), rest)) :
    back.name = name ∧ ∃ mid, deserializeLink tree lookup s = some (back.dest, mid) := by
  simp only [deserializeRest, bind, StateT.bind, Option.bind_eq_some_iff] at h
  obtain ⟨⟨dest, mid⟩, hlink, ⟨size, mid'⟩, hsize, ⟨good, mid''⟩, hgood, heq⟩ := h
  cases heq
  exact ⟨rfl, mid, hlink⟩

/-- A variable comes back exactly when the whole program is written, its name is a
C string, and its destination link comes back. -/
theorem data_variable_round_trip_iff (tree : Tree) (lookup : UInt32 → Option (Option ChunkId))
    (op : IDOperations) (localModuleOnly : Bool) (var : DataVariable) (hdest : var.dest.WellTyped tree)
    (hop : Restores (var.serialize tree localModuleOnly op).2 lookup) :
    var.RoundTrips tree lookup op localModuleOnly ↔
      localModuleOnly = false ∧ 0 ∉ var.name ∧ var.dest.KeepsTarget ∧ var.dest.KeepsScope := by
  constructor
  · rintro ⟨back, hread, hsame⟩
    obtain ⟨extra, hnul, hrest⟩ := deserialize_eq hop
    have hrun := hread []
    rw [List.append_nil, hrest] at hrun
    obtain ⟨hback, mid, hlink⟩ := deserializeRest_inv hrun
    have hname : 0 ∉ var.name := (takeWhile_ne_zero_eq_iff _).1 (hback.symm.trans hsame.name.symm)
    rw [hnul hname, List.nil_append] at hrun hlink
    cases localModuleOnly with
    | true => exact absurd hrun (deserializeRest_local_ne _ _ _ _ _)
    | false =>
      obtain ⟨used, extra, hbytes, hread, -⟩ := reads_deserializeLink hop hdest
      have hdestBytes : (serializeDest tree false var.dest (assign var.parent op).2).1 = used ++ extra := hbytes
      rw [hdestBytes, List.append_assoc, hread, Option.some.injEq, Prod.mk.injEq] at hlink
      have hdest' := hsame.dest
      rw [← hlink.1] at hdest'
      have hkeeps := (sameTarget_restored_iff tree var.dest).1 hdest'.1
      exact ⟨rfl, hname, hkeeps, (sameAttributes_restored_iff hkeeps).1 hdest'.2⟩
  · rintro ⟨rfl, hname, hkeeps, hscope⟩
    obtain ⟨used, extra, hbytes, hlink, hextra⟩ := reads_deserializeLink hop hdest
    rw [hextra hkeeps.nulFree, List.append_nil] at hbytes
    refine ⟨{ var with dest := var.dest.restored }, ?_, ⟨rfl, rfl, rfl, rfl,
      (sameTarget_restored_iff tree var.dest).2 hkeeps, (sameAttributes_restored_iff hkeeps).2 hscope⟩⟩
    rw [← hbytes] at hlink
    exact (reads_deserializeLinkTarget (hop.mono (serialize_subset false))).bind ((reads_readU64 _).bind
      ((reads_readString hname).bind (hlink.bind ((reads_readU64 _).bind_nil
        (reads_stillGood.skip (reads_pure _))))))

/-- A named variable in section 1 that refers to function 2. -/
def sampleVariable : DataVariable := ⟨some 1, 8, [0x78], .absoluteNormal (some 2) .internalJump, 8⟩

theorem sampleVariable_restores : Restores (sampleVariable.serialize sampleTree false sampleOps).2
    (sampleVariable.serialize sampleTree false sampleOps).2.lookup :=
  ((sampleOps_wf.assign (by decide) (some 1)).assign (by decide) (some 2)).restores (by decide)

theorem data_variable_round_trip_iff_sample :
    sampleVariable.RoundTrips sampleTree (sampleVariable.serialize sampleTree false sampleOps).2.lookup
      sampleOps false :=
  (data_variable_round_trip_iff sampleTree _ sampleOps false sampleVariable trivial
    sampleVariable_restores).2 ⟨rfl, by decide, trivial, trivial⟩

/-- In the local-module mode the reader takes the variable's size for its link. -/
theorem local_variable_not_restored :
    ¬ sampleVariable.RoundTrips sampleTree (sampleVariable.serialize sampleTree true sampleOps).2.lookup
      sampleOps true := by
  rintro ⟨back, hread, -⟩
  have hrun : deserialize sampleTree (sampleVariable.serialize sampleTree true sampleOps).2.lookup
      ⟨(sampleVariable.serialize sampleTree true sampleOps).1, true⟩ =
      some ((⟨some 1, 8, [0x78], .unresolved 0, 0⟩, false), ⟨[], false⟩) := by decide +kernel
  have := hread []
  rw [List.append_nil, hrun] at this
  cases this

end DataVariable

end Egalito.Serializer
