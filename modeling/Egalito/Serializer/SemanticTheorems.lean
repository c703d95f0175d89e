import Egalito.Serializer.Semantic
/-!
# Which semantics come back

Writer and reader agree on every kind but three. A data-linked control flow
instruction is written without its bytes, which its reader asks for first;
stack frame and literal instructions are written, but reading one throws.
-/

open Egalito.Lib Egalito.Archive

namespace Egalito.Serializer

/-! ## Displacements -/

/-- The search finds the bytes of the displacement, if they stand anywhere below its start. -/
theorem findDisp_spec {bytes : List UInt8} {dispSize : Nat} {disp : UInt64} {offset start : Nat}
    (hpos : 0 < offset) (hle : offset ≤ start)
    (h : (bytes.drop offset).take dispSize = leBytes dispSize disp.toNat) :
    (bytes.drop (findDisp bytes dispSize disp start)).take dispSize = leBytes dispSize disp.toNat := by
  induction start with
  | zero => omega
  | succ start ih =>
    rw [findDisp]
    split_ifs with hmatch
    · exact hmatch
    · have hne : offset ≠ start + 1 := fun heq => hmatch (heq ▸ h)
      exact ih (by omega)

theorem length_patch {l : Linked} {bytes : List UInt8} (disp : UInt64)
    (h : l.displacementOffset + l.displacementSize ≤ bytes.length) :
    (l.patch bytes disp).length = bytes.length := by
  simp only [Linked.patch, List.length_append, List.length_take, length_leBytes, List.length_drop]
  omega

theorem drop_take_patch {l : Linked} {bytes : List UInt8} (disp : UInt64)
    (h : l.displacementOffset + l.displacementSize ≤ bytes.length) :
    ((l.patch bytes disp).drop l.displacementOffset).take l.displacementSize =
      leBytes l.displacementSize disp.toNat := by
  have hlen : (bytes.take l.displacementOffset).length = l.displacementOffset := by
    rw [List.length_take]
    omega
  rw [Linked.patch, List.drop_left' hlen, List.take_left' (length_leBytes _ _)]

/-- Putting a displacement where it already stands changes nothing. -/
theorem patch_eq_self {l : Linked} {bytes : List UInt8} {disp : UInt64}
    (h : (bytes.drop l.displacementOffset).take l.displacementSize = leBytes l.displacementSize disp.toNat) :
    l.patch bytes disp = bytes := by
  rw [Linked.patch, ← h, ← List.drop_drop, List.take_append_drop, List.take_append_drop]

theorem isRIPRelative_eq_of_kind {link back : Link} (h : link.kind = back.kind) :
    link.isRIPRelative = back.isRIPRelative := by
  cases link <;> cases back <;> first | rfl | cases h

/-- The displacement depends on the kind and the target address of the link only. -/
theorem calculateDisplacement_eq {tree : Tree} {instruction : ChunkId} {l back : Linked}
    (hlink : SameTarget tree l.link back.link) (hlen : l.data.length = back.data.length) :
    back.calculateDisplacement tree instruction = l.calculateDisplacement tree instruction := by
  have hkind := hlink.kind_eq
  have hnull : back.link = .null ↔ l.link = .null := by
    constructor <;> intro h <;> rw [h] at hkind
    · cases hl : l.link <;> rw [hl] at hkind <;> first | rfl | cases hkind
    · cases hb : back.link <;> rw [hb] at hkind <;> first | rfl | cases hkind
  simp only [Linked.calculateDisplacement, hnull, ← isRIPRelative_eq_of_kind hkind, ← hlink.address_eq,
    ← hlen]

/-! ## What was written -/

section Written

variable {tree : Tree} {disasm : Disasm} {instruction : ChunkId} {op op' : IDOperations} {bytes : List UInt8}

theorem serializeLink_inv {link : Link} (h : serializeLink tree link op = some (bytes, op')) :
    link ≠ .null ∧ link.serialize tree op = (bytes, op') := by
  simp only [serializeLink] at h
  split_ifs at h with hnull
  · cases h
  · exact ⟨hnull, Option.some.inj h⟩

theorem lift_inv {α : Type} {x : Option α} {a : α} (h : (liftM x : Writer α) op = some (a, op')) :
    x = some a ∧ op' = op := by
  cases x with
  | none => cases h
  | some b =>
    cases h
    exact ⟨rfl, rfl⟩

theorem write_inv {semantic : Semantic} (h : semantic.write tree disasm instruction op = some (bytes, op')) :
    ∃ data, semantic.encoded tree disasm instruction = some data ∧
      bytes = writeU8 semantic.kind.value ++ writeBytes8 data ∧ op' = op := by
  simp only [Semantic.write, bind, StateT.bind, Option.bind_eq_some_iff] at h
  obtain ⟨⟨data, mid⟩, hdata, heq⟩ := h
  obtain ⟨hbytes, rfl⟩ := lift_inv hdata
  cases heq
  exact ⟨data, hbytes, rfl, rfl⟩

theorem serialize_linked_inv {l : Linked}
    (h : (Semantic.linked l).serialize tree disasm instruction op = some (bytes, op')) :
    ∃ data, l.writeTo tree disasm instruction = some data ∧ op' = (l.link.serialize tree op).2 ∧
      bytes = writeU8 SemanticKind.linked.value ++ (writeBytes8 data ++
        ((l.link.serialize tree op).1 ++ writeU8 l.opIndex)) := by
  simp only [Semantic.serialize, bind, StateT.bind, Option.bind_eq_some_iff] at h
  obtain ⟨⟨head, mid⟩, hhead, ⟨link, mid'⟩, hlink, heq⟩ := h
  obtain ⟨data, hdata, rfl, rfl⟩ := write_inv hhead
  obtain ⟨-, hlink⟩ := serializeLink_inv hlink
  cases heq
  exact ⟨data, hdata, by rw [hlink], by rw [hlink, List.append_assoc]; rfl⟩

theorem serialize_controlFlow_inv {cf : ControlFlow}
    (h : (Semantic.controlFlow cf).serialize tree disasm instruction op = some (bytes, op')) :
    op' = (cf.link.serialize tree (assign cf.source op).2).2 ∧
      bytes = writeU8 SemanticKind.controlFlow.value ++ (writeU32 cf.id ++ (writeU32 (assign cf.source op).1 ++
        (writeBytes8 cf.opcode ++ (writeString cf.mnemonic.1 ++ (writeU8 cf.displacementSize ++
          (writeBool (!cf.nonreturn) ++ (cf.link.serialize tree (assign cf.source op).2).1)))))) := by
  simp only [Semantic.serialize, bind, StateT.bind, Option.bind_eq_some_iff] at h
  obtain ⟨⟨source, mid⟩, hsource, ⟨link, mid'⟩, hlink, heq⟩ := h
  have hsource : assign cf.source op = (source, mid) := Option.some.inj hsource
  obtain ⟨-, hlink⟩ := serializeLink_inv hlink
  cases heq
  rw [hsource, hlink]
  exact ⟨rfl, rfl⟩

theorem serialize_dataLinked_inv {l : Linked} {isRelative : Bool}
    (h : (Semantic.dataLinkedControlFlow l isRelative).serialize tree disasm instruction op = some (bytes, op')) :
    bytes = writeU8 SemanticKind.dataLinkedControlFlow.value ++ ((l.link.serialize tree op).1 ++
      (writeU8 l.opIndex ++ writeBool isRelative)) := by
  simp only [Semantic.serialize, bind, StateT.bind, Option.bind_eq_some_iff] at h
  obtain ⟨⟨link, mid⟩, hlink, heq⟩ := h
  obtain ⟨-, hlink⟩ := serializeLink_inv hlink
  cases heq
  rw [hlink]

theorem serialize_indirectJump_inv {register : UInt8} {mnemonic : CString} {data : List UInt8}
    {jumpTables : List (Option ChunkId)}
    (h : (Semantic.indirectJump register mnemonic data jumpTables).serialize tree disasm instruction op =
      some (bytes, op')) :
    ∃ data', disasm.getBytes data = some data' ∧ op' = (assignAll jumpTables op).2 ∧
      bytes = writeU8 SemanticKind.indirectJump.value ++ (writeString mnemonic.1 ++ (writeU8 register ++
        (writeBytes8 data' ++ (writeU32 (UInt32.ofNat jumpTables.length) ++ (assignAll jumpTables op).1)))) := by
  simp only [Semantic.serialize, bind, StateT.bind, Option.bind_eq_some_iff] at h
  obtain ⟨⟨data', mid⟩, hdata, ⟨ids, mid'⟩, hids, heq⟩ := h
  obtain ⟨hbytes, rfl⟩ := lift_inv hdata
  have hids : assignAll jumpTables mid = (ids, mid') := Option.some.inj hids
  cases heq
  rw [hids]
  exact ⟨data', hbytes, rfl, rfl⟩

theorem serialize_indirectCall_inv {register : UInt8} {data : List UInt8}
    (h : (Semantic.indirectCall register data).serialize tree disasm instruction op = some (bytes, op')) :
    ∃ data', disasm.getBytes data = some data' ∧
      bytes = writeU8 SemanticKind.indirectCall.value ++ (writeU32 register.toUInt32 ++ writeBytes8 data') := by
  simp only [Semantic.serialize, bind, StateT.bind, Option.bind_eq_some_iff] at h
  obtain ⟨⟨data', mid⟩, hdata, heq⟩ := h
  obtain ⟨hbytes, rfl⟩ := lift_inv hdata
  cases heq
  exact ⟨data', hbytes, rfl⟩

end Written

/-! ## Reading it back -/

section Back

variable {tree : Tree} {disasm : Disasm} {instruction : ChunkId} {lookup : UInt32 → Option (Option ChunkId)}
  {op op' : IDOperations} {bytes rest : List UInt8} {back : Semantic}

theorem length_writeTo {l : Linked} {data : List UInt8} (hl : l.WellFormed disasm)
    (h : l.writeTo tree disasm instruction = some data) :
    ∃ disp, l.calculateDisplacement tree instruction = some disp ∧ data = l.patch l.data disp ∧
      data.length = l.data.length ∧ data.length < 256 := by
  simp only [Linked.writeTo, hl.single, bind, Option.bind_some, Option.bind_eq_some_iff] at h
  obtain ⟨disp, hdisp, heq⟩ := h
  cases heq
  have hlen := length_patch disp hl.inside
  have hle := disasm.length_le _ _ hl.single
  exact ⟨disp, hdisp, rfl, hlen, by omega⟩

theorem setIndex_link {data : List UInt8} {link : Link} {opIndex : UInt8} {l : Linked}
    (h : setIndex disasm data link opIndex = some l) : l.link = link := by
  simp only [setIndex, bind, Option.bind_eq_some_iff] at h
  obtain ⟨bytes, -, heq⟩ := h
  cases heq
  rfl

/-- Reading a linked instruction: the data, then what the link became. -/
theorem deserializeLinked_run {link : Link} {data : List UInt8} {opIndex : UInt8} {l : Linked} {s : Lib.Stream}
    (hdata : data.length < 256) (hop : Restores (link.serialize tree op).2 lookup) (hlink : link.WellTyped tree)
    (h : deserializeLinked tree disasm lookup
      ⟨writeBytes8 data ++ ((link.serialize tree op).1 ++ writeU8 opIndex), true⟩ = some (l, s)) :
    l.link = link.restored := by
  obtain ⟨used, extra, hbytes, hread, -⟩ := reads_deserializeLink hop hlink
  rw [hbytes, List.append_assoc, deserializeLinked, (reads_readBytes8 hdata).run_bind, hread.run_bind] at h
  simp only [bind, StateT.bind, Option.bind_eq_some_iff] at h
  obtain ⟨⟨index, mid⟩, -, hset⟩ := h
  cases hl : setIndex disasm data link.restored index with
  | none =>
    rw [hl] at hset
    cases hset
  | some l' =>
    rw [hl] at hset
    cases hset
    exact setIndex_link hl

theorem reads_deserializeLinked {l : Linked} {data : List UInt8} {disp : UInt64} (hl : l.WellFormed disasm)
    (hdata : data = l.patch l.data disp) (hlen : data.length < 256)
    (hop : Restores (l.link.serialize tree op).2 lookup) (hlink : l.link.WellTyped tree)
    (hkeeps : l.link.KeepsTarget) :
    Reads (deserializeLinked tree disasm lookup)
      (writeBytes8 data ++ ((l.link.serialize tree op).1 ++ writeU8 l.opIndex))
      ⟨data, l.link.restored, l.opIndex, l.displacementSize, disasm.getDispOffset data l.opIndex⟩ := by
  obtain ⟨used, extra, hbytes, hread, hnul⟩ := reads_deserializeLink hop hlink
  rw [hnul hkeeps.nulFree, List.append_nil] at hbytes
  rw [hbytes]
  refine (reads_readBytes8 hlen).bind (hread.bind ((reads_readU8 _).bind_nil (reads_lift ?_)))
  rw [hdata, setIndex, hl.patched disp]
  simp only [bind, Option.bind_some, hl.size disp]
  rfl

/-- The displacement is found again where it was put, or where the same bytes stand. -/
theorem writeTo_restored {l : Linked} {data : List UInt8} {disp : UInt64} (hl : l.WellFormed disasm)
    (hdisp : l.calculateDisplacement tree instruction = some disp) (hdata : data = l.patch l.data disp)
    (hsame : SameTarget tree l.link l.link.restored) :
    Linked.writeTo tree disasm instruction
      ⟨data, l.link.restored, l.opIndex, l.displacementSize, disasm.getDispOffset data l.opIndex⟩ = some data := by
  have hlen : l.data.length = data.length := by rw [hdata, length_patch disp hl.inside]
  have hback : Linked.calculateDisplacement tree instruction ⟨data, l.link.restored, l.opIndex,
      l.displacementSize, disasm.getDispOffset data l.opIndex⟩ = some disp := by
    rw [← hdisp]
    exact calculateDisplacement_eq hsame hlen
  obtain ⟨value, hvalue, hbytes⟩ := hl.value disp
  have hsize := hl.size disp
  have hsingle := hl.patched disp
  rw [← hdata] at hvalue hsize hsingle
  have hplace : (data.drop (disasm.getDispOffset data l.opIndex)).take l.displacementSize =
      leBytes l.displacementSize disp.toNat := by
    have hput := drop_take_patch disp hl.inside
    rw [← hdata, ← hbytes] at hput
    have hinside := hl.inside
    simp only [Disasm.getDispOffset, hvalue, hsize, ← hbytes]
    exact findDisp_spec hl.after (by omega) hput
  simp only [Linked.writeTo, hsingle, hback, bind, Option.bind_some]
  rw [patch_eq_self hplace]
  rfl

theorem mnemonic_eq (mnemonic : CString) :
    (⟨mnemonic.1.takeWhile (· != 0), zero_notMem_takeWhile mnemonic.1⟩ : CString) = mnemonic :=
  Subtype.ext ((takeWhile_ne_zero_eq_iff mnemonic.1).2 mnemonic.2)

theorem reads_lookupAs {cls : ChunkClass} {object : Option ChunkId} (hop : Restores (assign object op).2 lookup)
    (hcls : ∀ c ∈ object, tree.chunkClass c = cls) :
    Reads (lookupAs tree lookup cls) (writeU32 (assign object op).1) object :=
  (reads_deserializeLinkTarget hop).bind_pure (by rw [castTo_eq hcls])

/-- What a control flow instruction becomes before its link is read. -/
theorem deserializeControlFlow_run {cf : ControlFlow} {link : List UInt8} (hopcode : cf.opcode.length < 256)
    (hop : Restores (assign cf.source op).2 lookup)
    (hsource : ∀ c ∈ cf.source, tree.chunkClass c = .instruction) :
    deserializeControlFlow tree lookup ⟨writeU32 cf.id ++ (writeU32 (assign cf.source op).1 ++
      (writeBytes8 cf.opcode ++ (writeString cf.mnemonic.1 ++ (writeU8 cf.displacementSize ++
        (writeBool (!cf.nonreturn) ++ link))))), true⟩ =
    (deserializeLink tree lookup >>= fun l => pure { cf with link := l }) ⟨link, true⟩ := by
  rw [deserializeControlFlow, (reads_readU32 _).run_bind, (reads_lookupAs hop hsource).run_bind,
    (reads_readBytes8 hopcode).run_bind, (reads_readString cf.mnemonic.2).run_bind, (reads_readU8 _).run_bind,
    (reads_readBool _).run_bind]
  simp only [mnemonic_eq, Bool.not_not]

theorem controlFlow_writeTo_eq {cf : ControlFlow} {link : Link} (hsame : SameTarget tree cf.link link) :
    ControlFlow.writeTo tree { cf with link } = cf.writeTo tree := by
  simp only [ControlFlow.writeTo, ControlFlow.calculateDisplacement, ← hsame.address_eq,
    ← isRIPRelative_eq_of_kind hsame.kind_eq]

theorem assignAll_subset (objects : List (Option ChunkId)) (op : IDOperations) :
    op.assignment ⊆ (assignAll objects op).2.assignment := by
  induction objects generalizing op with
  | nil => exact List.Subset.refl _
  | cons object objects ih => exact List.Subset.trans (assign_subset object op) (ih _)

theorem length_assignAll (objects : List (Option ChunkId)) (op : IDOperations) :
    (assignAll objects op).1.length = 4 * objects.length := by
  induction objects generalizing op with
  | nil => rfl
  | cons object objects ih =>
    change (writeU32 (assign object op).1 ++ (assignAll objects (assign object op).2).1).length = _
    rw [List.length_append, ih, writeU32, length_leBytes, List.length_cons]
    omega

/-- Reading `count` of the jump tables leaves the ids of the others. -/
theorem reads_readJumpTables {tables : List (Option ChunkId)} {count : Nat}
    (hop : Restores (assignAll tables op).2 lookup)
    (htables : ∀ table ∈ tables, ∀ c ∈ table, tree.chunkClass c = .jumpTable) (hcount : count ≤ tables.length) :
    ∃ used extra, (assignAll tables op).1 = used ++ extra ∧ extra.length = 4 * (tables.length - count) ∧
      Reads (readJumpTables tree lookup count) used (tables.take count) := by
  induction tables generalizing op count with
  | nil =>
    obtain rfl : count = 0 := by simpa using hcount
    exact ⟨[], [], rfl, rfl, reads_pure _⟩
  | cons table tables ih =>
    cases count with
    | zero => exact ⟨[], _, rfl, length_assignAll (table :: tables) op, reads_pure _⟩
    | succ count =>
      have hsub := assignAll_subset tables (assign table op).2
      obtain ⟨used, extra, hbytes, hextra, hread⟩ := ih (show Restores (assignAll tables _).2 lookup from hop)
        (fun t ht => htables t (List.mem_cons_of_mem _ ht)) (Nat.le_of_succ_le_succ hcount)
      refine ⟨writeU32 (assign table op).1 ++ used, extra, ?_, ?_,
        (reads_lookupAs (hop.mono hsub) (htables table List.mem_cons_self)).bind (hread.bind_pure rfl)⟩
      · rw [List.append_assoc, ← hbytes]
        rfl
      · rw [hextra, List.length_cons]
        omega

end Back

/-! ## The round trip, kind by kind -/

section RoundTrip

variable {tree : Tree} {disasm : Disasm} {instruction : ChunkId} {lookup : UInt32 → Option (Option ChunkId)}
  {op op' : IDOperations} {bytes : List UInt8}

theorem sameTarget_null (tree : Tree) : SameTarget tree .null .null := .single rfl nofun rfl rfl rfl

theorem linked_roundTrips_iff {l : Linked} (hl : (Semantic.linked l).WellFormed tree disasm)
    (hser : (Semantic.linked l).serialize tree disasm instruction op = some (bytes, op'))
    (hop : Restores op' lookup) :
    (Semantic.linked l).RoundTrips tree disasm instruction lookup bytes ↔ l.link.KeepsTarget := by
  obtain ⟨data, hdata, rfl, rfl⟩ := serialize_linked_inv hser
  obtain ⟨disp, hdisp, hpatch, hlen, hlt⟩ := length_writeTo hl.1 hdata
  constructor
  · rintro ⟨back, hread, hsame⟩
    have hrun := hread []
    rw [List.append_nil, deserializeSemantic, (reads_readU8 _).run_bind] at hrun
    change (deserializeLinked tree disasm lookup >>= fun l => pure (some (Semantic.linked l))) _ = _ at hrun
    simp only [bind, StateT.bind, Option.bind_eq_some_iff] at hrun
    obtain ⟨⟨l', s⟩, hl', heq⟩ := hrun
    cases heq
    have hlink : SameTarget tree l.link l'.link := hsame.link
    rw [deserializeLinked_run hlt hop hl.2 hl'] at hlink
    exact (sameTarget_restored_iff tree l.link).1 hlink
  · intro hkeeps
    have hlink := (sameTarget_restored_iff tree l.link).2 hkeeps
    refine ⟨_, (reads_readU8 _).bind ((reads_deserializeLinked hl.1 hpatch hlt hop hl.2 hkeeps).bind_pure rfl),
      rfl, ?_, hlen, hlink⟩
    exact (writeTo_restored hl.1 hdisp hpatch hlink).trans hdata.symm

theorem controlFlow_roundTrips_iff {cf : ControlFlow} (hcf : (Semantic.controlFlow cf).WellFormed tree disasm)
    (hser : (Semantic.controlFlow cf).serialize tree disasm instruction op = some (bytes, op'))
    (hop : Restores op' lookup) :
    (Semantic.controlFlow cf).RoundTrips tree disasm instruction lookup bytes ↔ cf.link.KeepsTarget := by
  obtain ⟨rfl, rfl⟩ := serialize_controlFlow_inv hser
  obtain ⟨hopcode, hsource, hlinkTyped⟩ := hcf
  have hopcode : cf.opcode.length < 256 := by omega
  have hop' := hop.mono (serialize_subset tree cf.link (assign cf.source op).2)
  obtain ⟨used, extra, hbytes, hread, hnul⟩ := reads_deserializeLink hop hlinkTyped
  constructor
  · rintro ⟨back, hback, hsame⟩
    have hrun := hback []
    rw [List.append_nil, deserializeSemantic, (reads_readU8 _).run_bind] at hrun
    change (deserializeControlFlow tree lookup >>= fun cf => pure (some (Semantic.controlFlow cf))) _ = _ at hrun
    simp only [bind, StateT.bind, Option.bind_eq_some_iff] at hrun
    obtain ⟨⟨cf', s⟩, hcf', heq⟩ := hrun
    cases heq
    rw [deserializeControlFlow_run hopcode hop' hsource, hbytes, hread.run_bind] at hcf'
    cases hcf'
    exact (sameTarget_restored_iff tree cf.link).1 hsame.link
  · intro hkeeps
    have hlink := (sameTarget_restored_iff tree cf.link).2 hkeeps
    refine ⟨.controlFlow { cf with link := cf.link.restored }, fun rest => ?_, rfl,
      controlFlow_writeTo_eq hlink, rfl, hlink⟩
    rw [hnul hkeeps.nulFree, List.append_nil] at hbytes
    rw [List.append_assoc, deserializeSemantic, (reads_readU8 _).run_bind]
    change (deserializeControlFlow tree lookup >>= fun cf => pure (some (Semantic.controlFlow cf))) _ = _
    simp only [List.append_assoc, bind, StateT.bind]
    rw [deserializeControlFlow_run hopcode hop' hsource, hbytes, hread.run_bind]
    rfl

/-- The bytes of a kind that is written with `write` and is one instruction. -/
theorem getBytes_length_lt {data : List UInt8} (h : disasm.getBytes data = some data) : data.length < 256 := by
  have := disasm.length_le _ _ h
  omega

theorem indirectJump_roundTrips_iff {register : UInt8} {mnemonic : CString} {data : List UInt8}
    {tables : List (Option ChunkId)}
    (hj : (Semantic.indirectJump register mnemonic data tables).WellFormed tree disasm)
    (hser : (Semantic.indirectJump register mnemonic data tables).serialize tree disasm instruction op =
      some (bytes, op')) (hop : Restores op' lookup) :
    (Semantic.indirectJump register mnemonic data tables).RoundTrips tree disasm instruction lookup bytes ↔
      tables.length < 2 ^ 32 := by
  obtain ⟨data', hdata', rfl, rfl⟩ := serialize_indirectJump_inv hser
  obtain ⟨hdata, htables⟩ := hj
  obtain rfl : data' = data := Option.some.inj (hdata'.symm.trans hdata)
  have hcount : (UInt32.ofNat tables.length).toNat = tables.length % 2 ^ 32 := UInt32.toNat_ofNat'
  obtain ⟨used, extra, hids, hextra, hread⟩ := reads_readJumpTables hop htables
    (Nat.mod_le tables.length (2 ^ 32))
  rw [← hcount] at hread
  have hback : Reads (deserializeSemantic tree disasm lookup)
      (writeU8 SemanticKind.indirectJump.value ++ (writeString mnemonic.1 ++ (writeU8 register ++
        (writeBytes8 data' ++ (writeU32 (UInt32.ofNat tables.length) ++ used)))))
      (some (.indirectJump register mnemonic data' (tables.take (UInt32.ofNat tables.length).toNat))) := by
    refine (reads_readU8 _).bind ((reads_readString mnemonic.2).bind ((reads_readU8 _).bind
      ((reads_readBytes8 (getBytes_length_lt hdata)).bind ((reads_readU32 _).bind (hread.bind_pure ?_)))))
    rw [mnemonic_eq]
  constructor
  · rintro ⟨back, hback', -⟩
    have hrun := (hback extra).symm.trans (by
      simp only [List.append_assoc, ← hids]
      simpa only [List.append_nil] using hback' [])
    have hnil : extra = [] := by
      have := congrArg (fun r => r.map (fun p => p.2.rest)) hrun
      simpa using this
    rw [hnil, List.length_nil] at hextra
    have := Nat.mod_lt tables.length (show 0 < 2 ^ 32 by decide)
    omega
  · intro hlt
    have hnil : extra = [] := by
      rw [Nat.mod_eq_of_lt hlt, Nat.sub_self] at hextra
      exact List.eq_nil_of_length_eq_zero hextra
    rw [hnil, List.append_nil] at hids
    rw [hids]
    exact ⟨_, hback, rfl, rfl, rfl, sameTarget_null tree⟩

/-- The reader takes the type of the link for the length of the bytes that were not written. -/
theorem dataLinked_not_roundTrips {l : Linked} {isRelative : Bool}
    (hser : (Semantic.dataLinkedControlFlow l isRelative).serialize tree disasm instruction op =
      some (bytes, op')) :
    ¬ (Semantic.dataLinkedControlFlow l isRelative).RoundTrips tree disasm instruction lookup bytes := by
  rintro ⟨back, hread, hsame⟩
  have hrun := hread []
  have hlength : (l.link.serializeFields tree op).1.length + 1 = l.link.wireLength := by
    rw [← length_serialize tree l.link op]
    rfl
  have hbytes : bytes = writeU8 SemanticKind.dataLinkedControlFlow.value ++ (writeU8 l.link.linkType.value ++
      ((l.link.serializeFields tree op).1 ++ (writeU8 l.opIndex ++ writeBool isRelative))) :=
    serialize_dataLinked_inv hser
  rw [List.append_nil, hbytes, deserializeSemantic, (reads_readU8 _).run_bind] at hrun
  change (deserializeLinked tree disasm lookup >>= fun l => pure (some
    (Semantic.dataLinkedControlFlow l l.link.isRIPRelative))) _ = _ at hrun
  simp only [deserializeLinked, readBytes8, bind_assoc] at hrun
  rw [(reads_readU8 _).run_bind] at hrun
  have htakes : Takes (do
      let data ← readFixedLengthBytes l.link.linkType.value.toNat
      let link ← deserializeLink tree lookup
      let opIndex ← readU8
      let l' ← setIndex disasm data link opIndex
      pure (some (Semantic.dataLinkedControlFlow l' l'.link.isRIPRelative)))
      (fun back k => ∃ l' r j, back = some (.dataLinkedControlFlow l' r) ∧ Wire l'.link j ∧
        k = l.link.linkType.value.toNat + j + 1) := by
    refine (takes_read _).bind fun data => takes_deserializeLink.bind fun link => takes_readU8.bind fun opIndex =>
      (takes_lift _).bind_pure ?_
    rintro l' _ ⟨hset, rfl⟩ _ rfl j hj _ ⟨-, rfl⟩
    exact ⟨l', _, j, rfl, setIndex_link hset ▸ hj, by omega⟩
  obtain ⟨-, k, ⟨l', r, j, hback, hwire, hk⟩, hlen⟩ := htakes _ _ _ hrun rfl
  cases hback
  have hlink : SameTarget tree l.link l'.link := hsame.link
  refine code_add_ne_wireLength hlink hwire ?_
  simp only [List.length_append, List.length_nil, writeU8, writeBool, List.length_singleton] at hlen
  omega

/-- The kinds that come back. -/
def Semantic.Restorable : Semantic → Prop
  | .isolated _ => True
  | .linked l => l.link.KeepsTarget
  | .controlFlow cf => cf.link.KeepsTarget
  | .ret _ => True
  | .indirectJump _ _ _ jumpTables => jumpTables.length < 2 ^ 32
  | .indirectCall _ _ => True
  | _ => False

/-- Whatever `serialize` accepts comes back exactly when its kind is one of these. -/
theorem instruction_round_trip_iff (tree : Tree) (disasm : Disasm) (instruction : ChunkId)
    (lookup : UInt32 → Option (Option ChunkId)) (op op' : IDOperations) (bytes : List UInt8)
    (semantic : Semantic) (hsem : semantic.WellFormed tree disasm)
    (hser : semantic.serialize tree disasm instruction op = some (bytes, op')) (hop : Restores op' lookup) :
    semantic.RoundTrips tree disasm instruction lookup bytes ↔ semantic.Restorable := by
  cases semantic with
  | linked l => exact linked_roundTrips_iff hsem hser hop
  | controlFlow cf => exact controlFlow_roundTrips_iff hsem hser hop
  | dataLinkedControlFlow l isRelative => exact iff_of_false (dataLinked_not_roundTrips hser) id
  | indirectJump register mnemonic data tables => exact indirectJump_roundTrips_iff hsem hser hop
  | isolated data =>
    obtain ⟨data', hdata', rfl, rfl⟩ := write_inv hser
    obtain rfl : data' = data := Option.some.inj (hdata'.symm.trans hsem)
    exact iff_of_true ⟨_, (reads_readU8 _).bind ((reads_readBytes8 (getBytes_length_lt hsem)).bind_pure rfl),
      rfl, rfl, rfl, sameTarget_null tree⟩ trivial
  | ret data =>
    obtain ⟨data', hdata', rfl, rfl⟩ := write_inv hser
    obtain rfl : data' = data := Option.some.inj (hdata'.symm.trans hsem)
    exact iff_of_true ⟨_, (reads_readU8 _).bind ((reads_readBytes8 (getBytes_length_lt hsem)).bind_pure rfl),
      rfl, rfl, rfl, sameTarget_null tree⟩ trivial
  | indirectCall register data =>
    obtain ⟨data', hdata', rfl⟩ := serialize_indirectCall_inv hser
    obtain rfl : data' = data := Option.some.inj (hdata'.symm.trans hsem)
    exact iff_of_true ⟨_, (reads_readU8 _).bind ((reads_readU32 _).bind
      ((reads_readBytes8 (getBytes_length_lt hsem)).bind_pure rfl)), rfl, rfl, rfl, sameTarget_null tree⟩ trivial
  | stackFrame data opCodeSize displacementSize displacement =>
    obtain ⟨data', -, rfl, -⟩ := write_inv hser
    exact iff_of_false (fun ⟨back, hread, _⟩ => nomatch hread []) id
  | literal data =>
    obtain ⟨data', -, rfl, -⟩ := write_inv hser
    exact iff_of_false (fun ⟨back, hread, _⟩ => nomatch hread []) id

end RoundTrip

/-! ## Two instructions -/

/-- The four bytes of a displacement, as the sign-extended value of an operand. -/
def signExtended (a b c d : UInt8) : UInt64 :=
  UInt64.ofNat (leNat [a, b, c, d] + 256 ^ 4 * (if d < 0x80 then 0 else 0xffffffff))

/-- A disassembler for `lea disp(%rip), %rax` and `jmp *disp(%rip)`. -/
def sampleDisasm : Disasm where
  getBytes
    | 0x48 :: 0x8d :: 0x05 :: a :: b :: c :: d :: _ => some [0x48, 0x8d, 0x05, a, b, c, d]
    | 0xff :: 0x25 :: a :: b :: c :: d :: _ => some [0xff, 0x25, a, b, c, d]
    | _ => none
  determineDisplacementSize _ _ := 4
  operandValue data opIndex := match data, opIndex with
    | [0x48, 0x8d, 0x05, a, b, c, d], 1 => some (signExtended a b c d)
    | [0xff, 0x25, a, b, c, d], 0 => some (signExtended a b c d)
    | _, _ => none
  instructionSemantic _ := none
  length_le := by
    intro data bytes h
    split at h <;> cases h <;> simp

theorem leBytes_signExtended (n : Nat) :
    leBytes 4 (signExtended (UInt8.ofNat n) (UInt8.ofNat (n / 256)) (UInt8.ofNat (n / 256 / 256))
      (UInt8.ofNat (n / 256 / 256 / 256))).toNat = leBytes 4 n := by
  have hlow : leNat [UInt8.ofNat n, UInt8.ofNat (n / 256), UInt8.ofNat (n / 256 / 256),
      UInt8.ofNat (n / 256 / 256 / 256)] = n % 256 ^ 4 := leNat_leBytes 4 n
  rw [signExtended, hlow, UInt64.toNat_ofNat', ← leBytes_mod, ← leBytes_mod 4 n]
  congr 1
  split_ifs <;> omega

def sampleLea : Linked := ⟨[0x48, 0x8d, 0x05, 0, 0, 0, 0], .dataOffset 1 8 0 .withinModule, 1, 4, 3⟩

def sampleJmp : Linked := ⟨[0xff, 0x25, 0, 0, 0, 0], .dataOffset 1 8 0 .withinModule, 0, 4, 2⟩

theorem sampleLea_wellFormed : sampleLea.WellFormed sampleDisasm where
  single := rfl
  after := by decide
  inside := by decide
  patched _ := rfl
  size _ := rfl
  value disp := ⟨_, rfl, leBytes_signExtended disp.toNat⟩

theorem sampleJmp_wellFormed : sampleJmp.WellFormed sampleDisasm where
  single := rfl
  after := by decide
  inside := by decide
  patched _ := rfl
  size _ := rfl
  value disp := ⟨_, rfl, leBytes_signExtended disp.toNat⟩

/-- The first instruction, at address 0, with its link into the data section. -/
theorem instruction_round_trip_iff_sample :
    (Semantic.linked sampleLea).RoundTrips sampleTree sampleDisasm 0 (assign (some 1) sampleOps).2.lookup
      [2, 7, 0x48, 0x8d, 0x05, 1, 1, 0, 0, 10, 4, 1, 0, 0, 0, 8, 0, 0, 0, 0, 0, 0, 0, 1] :=
  (instruction_round_trip_iff sampleTree sampleDisasm 0 _ sampleOps (assign (some 1) sampleOps).2 _
    (.linked sampleLea) ⟨sampleLea_wellFormed, rfl⟩ rfl
    ((sampleOps_wf.assign (by decide) (some 1)).restores (by decide))).2 trivial

/-- What is written of the second one: its bytes are missing. -/
theorem sampleJmp_serialize :
    (Semantic.dataLinkedControlFlow sampleJmp true).serialize sampleTree sampleDisasm 0 sampleOps =
      some ([4, 10, 4, 1, 0, 0, 0, 8, 0, 0, 0, 0, 0, 0, 0, 0, 0x31], (assign (some 1) sampleOps).2) := rfl

theorem data_linked_not_restored :
    (Semantic.dataLinkedControlFlow sampleJmp true).WellFormed sampleTree sampleDisasm ∧
      Restores (assign (some 1) sampleOps).2 (assign (some 1) sampleOps).2.lookup ∧
      ∃ bytes, (Semantic.dataLinkedControlFlow sampleJmp true).serialize sampleTree sampleDisasm 0 sampleOps =
          some (bytes, (assign (some 1) sampleOps).2) ∧
        ¬ (Semantic.dataLinkedControlFlow sampleJmp true).RoundTrips sampleTree sampleDisasm 0
          (assign (some 1) sampleOps).2.lookup bytes :=
  ⟨⟨sampleJmp_wellFormed, rfl⟩, (sampleOps_wf.assign (by decide) (some 1)).restores (by decide), _,
    sampleJmp_serialize, dataLinked_not_roundTrips sampleJmp_serialize⟩

end Egalito.Serializer
