import Mathlib.Data.List.Nodup
import Egalito.Serializer.Link
/-!
# What a link becomes

`restored` is the link that `deserialize` makes of the bytes that `serialize`
wrote. Which links come back as they were is decided from it.
-/

open Egalito.Lib Egalito.Archive

namespace Egalito.Serializer

/-! ## Ids -/

theorem Restores.mono {op op' : IDOperations} {lookup : UInt32 → Option (Option ChunkId)}
    (h : Restores op' lookup) (hsub : op.assignment ⊆ op'.assignment) : Restores op lookup :=
  ⟨h.null, fun p hp => h.assigned p (hsub hp)⟩

theorem assign_subset (object : Option ChunkId) (op : IDOperations) :
    op.assignment ⊆ (assign object op).2.assignment := by
  cases object with
  | none => exact List.Subset.refl _
  | some chunk =>
    simp only [assign]
    split
    · exact List.Subset.refl _
    · exact List.subset_cons_self _ _

/-- The reader finds an object under the id the writer used for it. -/
theorem lookup_assign {object : Option ChunkId} {op : IDOperations}
    {lookup : UInt32 → Option (Option ChunkId)} (h : Restores (assign object op).2 lookup) :
    lookup (assign object op).1 = some object := by
  cases object with
  | none => exact h.null
  | some chunk =>
    simp only [assign] at h ⊢
    split at h <;> rename_i heq
    · obtain ⟨l₁, l₂, hl, -⟩ := List.lookup_eq_some_iff.1 heq
      exact h.assigned (chunk, _) (by rw [hl]; simp)
    · exact h.assigned _ List.mem_cons_self

/-- The ids of a writer that has not run out of them: no two chunks share one. -/
structure IDOperations.Wf (op : IDOperations) : Prop where
  below : ∀ p ∈ op.assignment, p.2 < op.nextID
  distinct : (op.assignment.map Prod.snd).Nodup

theorem IDOperations.Wf.assign {op : IDOperations} (h : op.Wf) (hnext : op.nextID < noneID)
    (object : Option ChunkId) : (assign object op).2.Wf := by
  have hlt : op.nextID < op.nextID + 1 := by
    rw [UInt32.lt_iff_toNat_lt] at hnext ⊢
    rw [UInt32.toNat_add]
    simp only [noneID, UInt32.reduceToNat] at hnext ⊢
    omega
  cases object with
  | none => exact h
  | some chunk =>
    simp only [Serializer.assign]
    split
    · exact h
    · refine ⟨?_, List.nodup_cons.2 ⟨fun hmem => ?_, h.distinct⟩⟩
      · rintro p (_ | ⟨_, hp⟩)
        · exact hlt
        · exact UInt32.lt_trans (h.below p hp) hlt
      · obtain ⟨p, hp, heq⟩ := List.mem_map.1 hmem
        exact UInt32.lt_irrefl _ (heq ▸ h.below p hp)

/-- The lookup of an archive with these ids restores them. -/
theorem IDOperations.Wf.restores {op : IDOperations} (h : op.Wf) (hnext : op.nextID ≤ noneID) :
    Restores op op.lookup := by
  refine ⟨rfl, fun p hp => ?_⟩
  have hid : p.2 ≠ noneID := fun heq => UInt32.lt_irrefl _ (UInt32.lt_of_lt_of_le (heq ▸ h.below p hp) hnext)
  rw [IDOperations.lookup, if_neg hid]
  cases hfind : op.assignment.find? (fun q => q.2 = p.2) with
  | none => simpa using List.find?_eq_none.1 hfind p hp
  | some q =>
    have hq : q.2 = p.2 := by simpa using List.find?_some hfind
    rw [List.inj_on_of_nodup_map h.distinct (List.mem_of_find?_eq_some hfind) hp hq]
    rfl

/-! ## The link that comes back -/

/-- What `deserialize` makes of a link. The kinds without a case of their own
become an unresolved link, and the second link of a pair is made relative. -/
def Link.restored : Link → Link
  | .normal target scope => .normal target scope
  | .absoluteNormal target scope => .absoluteNormal target scope
  | .offset target off scope => .offset target off scope
  | .plt _ pltTrampoline => .plt 0 pltTrampoline
  | .jumpTable table => .jumpTable table
  | .egalitoLoader targetName => .egalitoLoader (targetName.takeWhile (· != 0))
  | .dataOffset section_ target addend scope => .dataOffset section_ (target + addend) 0 scope
  | .absoluteData section_ target addend _ => .absoluteData section_ (target + addend) 0 .unknown
  | .internalAndExternalData _ section_ target addend _ =>
    .absoluteData section_ (target + addend) 0 .unknown
  | .tlsDataOffset tls symbol target => .tlsDataOffset tls symbol target
  | .unresolved target => .unresolved target
  | .immAndDisp _ immTarget immScope dispLink => .immAndDisp false immTarget immScope dispLink.restored
  | _ => .unresolved 0

/-- No name is cut short by a NUL. -/
def Link.NulFree : Link → Prop
  | .egalitoLoader targetName => 0 ∉ targetName
  | .immAndDisp _ _ _ dispLink => dispLink.NulFree
  | _ => True

/-- Nesting of pairs of links. -/
def Link.depth : Link → Nat
  | .immAndDisp _ _ _ dispLink => dispLink.depth + 1
  | _ => 0

section Reads

variable {tree : Tree} {lookup : UInt32 → Option (Option ChunkId)}

theorem reads_deserializeLinkTarget {object : Option ChunkId} {op : IDOperations}
    (h : Restores (assign object op).2 lookup) :
    Reads (deserializeLinkTarget lookup) (writeU32 (assign object op).1) object :=
  (reads_readU32 _).bind_pure (b := object) (by rw [lookup_assign h]; rfl)

theorem castTo_eq {cls : ChunkClass} {target : Option ChunkId}
    (h : ∀ c ∈ target, tree.chunkClass c = cls) : castTo tree cls target = target := by
  cases target with
  | none => rfl
  | some c => simp [castTo, h c rfl]

theorem add_sub_cancel_address (address target addend : UInt64) :
    address + target + addend - address = target + addend := by
  rw [UInt64.add_assoc, UInt64.add_comm, UInt64.add_sub_cancel]

theorem serializeDataTarget_eq (section_ : ChunkId) (target addend : UInt64) (op : IDOperations) :
    serializeDataTarget tree section_ target addend op =
      (writeU32 (assign (some section_) op).1 ++ writeU64 (target + addend), (assign (some section_) op).2) := by
  simp only [serializeDataTarget, add_sub_cancel_address]
  rfl

theorem reads_deserializeDataTarget {section_ : ChunkId} {op : IDOperations} (offset : UInt64)
    (h : Restores (assign (some section_) op).2 lookup) (hcls : tree.chunkClass section_ = .dataSection) :
    Reads (deserializeDataTarget tree lookup)
      (writeU32 (assign (some section_) op).1 ++ writeU64 offset) (section_, offset) := by
  refine (reads_deserializeLinkTarget h).bind ?_
  refine (reads_lift (a := section_) ?_).skip ((reads_readU64 offset).bind_pure rfl)
  simp [castTo, hcls]

theorem takeWhile_ne_zero_eq_iff (name : List UInt8) : name.takeWhile (· != 0) = name ↔ 0 ∉ name := by
  rw [List.takeWhile_eq_self_iff]
  refine ⟨fun h h0 => by simpa using h 0 h0, fun h b hb => ?_⟩
  simpa using fun hb0 : b = 0 => h (hb0 ▸ hb)

theorem reads_deserializeSymbol (symbol : Option CString) :
    Reads deserializeSymbol (serializeSymbol symbol) symbol := by
  cases symbol with
  | none => exact (reads_readBool false).bind_pure rfl
  | some name =>
    refine (reads_readBool true).bind ?_
    refine (reads_readString name.2).bind_pure ?_
    simp [(takeWhile_ne_zero_eq_iff name.1).2 name.2]

/-- Of a written string, the reader takes what stands before the first NUL. -/
theorem reads_readString_cut (s : List UInt8) :
    ∃ used extra, writeString s = used ++ extra ∧ Reads readString used (s.takeWhile (· != 0)) ∧
      (0 ∉ s → extra = []) := by
  have hsplit : s = s.takeWhile (· != 0) ++ s.dropWhile (· != 0) := List.takeWhile_append_dropWhile.symm
  have hread := reads_readString (zero_notMem_takeWhile s)
  cases hdrop : s.dropWhile (· != 0) with
  | nil =>
    rw [hdrop, List.append_nil] at hsplit
    exact ⟨_, [], by rw [← hsplit, List.append_nil], hread, fun _ => rfl⟩
  | cons b rest =>
    have hb : b = 0 := by simpa [hdrop] using List.head?_dropWhile_not (· != 0) s
    rw [hdrop, hb] at hsplit
    refine ⟨_, rest ++ [0], ?_, hread, fun h => absurd (by rw [hsplit]; simp) h⟩
    conv_lhs => rw [hsplit]
    simp [writeString]

/-- `deserialize` makes `restored link` of what `serialize` wrote after the type. -/
theorem reads_deserializeFields {link : Link} {op : IDOperations}
    (hop : Restores (link.serializeFields tree op).2 lookup) (hlink : link.WellTyped tree)
    (hkind : link.kind ≠ .immAndDisp) :
    ∃ used extra, (link.serializeFields tree op).1 = used ++ extra ∧
      (∀ nested, Reads (deserializeFields tree lookup nested link.linkType) used link.restored) ∧
      (link.NulFree → extra = []) := by
  cases link with
  | normal target scope =>
    exact ⟨_, [], (List.append_nil _).symm, fun _ =>
      (reads_readU8 _).bind ((reads_deserializeLinkTarget hop).bind_pure rfl), fun _ => rfl⟩
  | absoluteNormal target scope =>
    exact ⟨_, [], (List.append_nil _).symm, fun _ =>
      (reads_readU8 _).bind ((reads_deserializeLinkTarget hop).bind_pure rfl), fun _ => rfl⟩
  | offset target off scope =>
    have hser : Link.serializeFields tree (.offset target off scope) op =
        (writeU8 scope.bits ++ (writeU32 (assign (some target) op).1 ++ writeU64 off),
          (assign (some target) op).2) := by
      rw [Link.serializeFields, UInt64.add_comm, UInt64.add_sub_cancel]
      rfl
    rw [hser] at hop ⊢
    exact ⟨_, [], (List.append_nil _).symm, fun _ => (reads_readU8 _).bind ((reads_deserializeLinkTarget hop).bind
      ((reads_lift rfl).skip ((reads_readU64 off).bind_pure rfl))), fun _ => rfl⟩
  | plt address trampoline =>
    refine ⟨_, [], (List.append_nil _).symm, fun _ => (reads_deserializeLinkTarget hop).bind_pure ?_, fun _ => rfl⟩
    rw [castTo_eq hlink]
    rfl
  | jumpTable table =>
    refine ⟨_, [], (List.append_nil _).symm, fun _ => (reads_deserializeLinkTarget hop).bind_pure ?_, fun _ => rfl⟩
    rw [castTo_eq hlink]
    rfl
  | egalitoLoader name =>
    obtain ⟨used, extra, hbytes, hread, hnul⟩ := reads_readString_cut name
    exact ⟨used, extra, hbytes, fun _ => hread.bind_pure rfl, hnul⟩
  | dataOffset section_ target addend scope =>
    have hser : Link.serializeFields tree (.dataOffset section_ target addend scope) op =
        (writeU8 scope.bits ++ (serializeDataTarget tree section_ target addend op).1,
          (serializeDataTarget tree section_ target addend op).2) := rfl
    rw [hser, serializeDataTarget_eq] at hop ⊢
    exact ⟨_, [], (List.append_nil _).symm, fun _ => (reads_readU8 _).bind
      ((reads_deserializeDataTarget (target + addend) hop hlink).bind_pure rfl), fun _ => rfl⟩
  | absoluteData section_ target addend scope =>
    rw [Link.serializeFields, serializeDataTarget_eq] at hop ⊢
    exact ⟨_, [], (List.append_nil _).symm, fun _ =>
      (reads_deserializeDataTarget (target + addend) hop hlink).bind_pure rfl, fun _ => rfl⟩
  | internalAndExternalData symbol section_ target addend scope =>
    rw [Link.serializeFields, serializeDataTarget_eq] at hop ⊢
    exact ⟨_, [], (List.append_nil _).symm, fun _ =>
      (reads_deserializeDataTarget (target + addend) hop hlink).bind_pure rfl, fun _ => rfl⟩
  | tlsDataOffset tls symbol target =>
    refine ⟨_, [], (List.append_nil _).symm, fun _ => ?_, fun _ => rfl⟩
    refine (reads_deserializeLinkTarget hop).bind ((reads_readU64 _).bind
      ((reads_deserializeSymbol symbol).bind_pure ?_))
    rw [castTo_eq hlink]
    rfl
  | unresolved target =>
    exact ⟨_, [], (List.append_nil _).symm, fun _ => (reads_readU64 _).bind_pure rfl, fun _ => rfl⟩
  | immAndDisp => exact absurd rfl hkind
  | _ => exact ⟨[], [], rfl, fun _ => reads_pure _, fun _ => rfl⟩

theorem serializeFields_subset (tree : Tree) (link : Link) (op : IDOperations) :
    op.assignment ⊆ (link.serializeFields tree op).2.assignment := by
  induction link generalizing op with
  | immAndDisp absolute target scope disp ih => exact List.Subset.trans (assign_subset target op) (ih _)
  | normal target => exact assign_subset target op
  | absoluteNormal target => exact assign_subset target op
  | offset target => exact assign_subset (some target) op
  | plt _ trampoline => exact assign_subset trampoline op
  | jumpTable table => exact assign_subset table op
  | dataOffset section_ => exact assign_subset (some section_) op
  | absoluteData section_ => exact assign_subset (some section_) op
  | internalAndExternalData _ section_ => exact assign_subset (some section_) op
  | tlsDataOffset tls => exact assign_subset tls op
  | _ => exact List.Subset.refl _

theorem serialize_subset (tree : Tree) (link : Link) (op : IDOperations) :
    op.assignment ⊆ (link.serialize tree op).2.assignment :=
  serializeFields_subset tree link op

theorem reads_deserializeDepth_succ {type : EgalitoLinkType} {fuel : Nat} {fields : List UInt8} {back : Link}
    (h : Reads (deserializeFields tree lookup (deserializeDepth tree lookup fuel) type) fields back) :
    Reads (deserializeDepth tree lookup (fuel + 1)) (writeType type ++ fields) back := by
  refine (reads_readU8 _).bind (reads_stillGood.skip ?_)
  rw [EgalitoLinkType.ofValue_value]
  exact h

variable (tree lookup) in
/-- `deserialize` returns `restored link` on `bytes`, at every depth that suffices; it
takes all of them unless a name is cut short by a NUL. -/
def ReadsBack (link : Link) (bytes : List UInt8) : Prop :=
  ∃ used extra, bytes = used ++ extra ∧ link.depth < used.length ∧
    (∀ fuel, link.depth < fuel → Reads (deserializeDepth tree lookup fuel) used link.restored) ∧
    (link.NulFree → extra = [])

theorem readsBack_leaf {link : Link} {op : IDOperations} (hop : Restores (link.serialize tree op).2 lookup)
    (hlink : link.WellTyped tree) (hkind : link.kind ≠ .immAndDisp) :
    ReadsBack tree lookup link (link.serialize tree op).1 := by
  have hdepth : link.depth = 0 := by
    cases link <;> first | rfl | exact absurd rfl hkind
  obtain ⟨used, extra, hbytes, hread, hnul⟩ := reads_deserializeFields hop hlink hkind
  refine ⟨writeType link.linkType ++ used, extra, ?_, ?_, fun fuel hfuel => ?_, hnul⟩
  · rw [List.append_assoc, ← hbytes]
    rfl
  · simp [hdepth, writeType, writeU8]
  · obtain ⟨n, rfl⟩ : ∃ n, fuel = n + 1 := ⟨fuel - 1, by omega⟩
    exact reads_deserializeDepth_succ (hread _)

theorem readsBack_immAndDisp {absolute : Bool} {target : Option ChunkId} {scope : LinkScope} {disp : Link}
    {op : IDOperations} (hop : Restores (disp.serialize tree (assign target op).2).2 lookup)
    (h : ReadsBack tree lookup disp (disp.serialize tree (assign target op).2).1) :
    ReadsBack tree lookup (.immAndDisp absolute target scope disp)
      (Link.serialize tree (.immAndDisp absolute target scope disp) op).1 := by
  obtain ⟨used, extra, hbytes, hdepth, hread, hnul⟩ := h
  have hop' := hop.mono (serialize_subset tree disp (assign target op).2)
  refine ⟨writeType .immAndDisp ++ (writeU8 scope.bits ++ (writeU32 (assign target op).1 ++ used)), extra,
    ?_, ?_, fun fuel hfuel => ?_, hnul⟩
  · rw [List.append_assoc, List.append_assoc, List.append_assoc, ← hbytes]
    rfl
  · simp only [Link.depth, writeType, writeU8, writeU32, List.length_append, List.length_singleton]
    omega
  · simp only [Link.depth] at hfuel
    obtain ⟨n, rfl⟩ : ∃ n, fuel = n + 1 := ⟨fuel - 1, by omega⟩
    exact reads_deserializeDepth_succ ((reads_readU8 _).bind
      ((reads_deserializeLinkTarget hop').bind ((hread n (by omega)).bind_pure rfl)))

theorem readsBack_serialize {link : Link} {op : IDOperations}
    (hop : Restores (link.serialize tree op).2 lookup) (hlink : link.WellTyped tree) :
    ReadsBack tree lookup link (link.serialize tree op).1 := by
  induction link generalizing op with
  | immAndDisp absolute target scope disp ih => exact readsBack_immAndDisp hop (ih hop hlink)
  | _ => exact readsBack_leaf hop hlink nofun

/-- `deserialize` returns `restored link` on what `serialize` wrote, and takes all of
it unless a name is cut short by a NUL. -/
theorem reads_deserializeLink {link : Link} {op : IDOperations}
    (hop : Restores (link.serialize tree op).2 lookup) (hlink : link.WellTyped tree) :
    ∃ used extra, (link.serialize tree op).1 = used ++ extra ∧
      Reads (deserializeLink tree lookup) used link.restored ∧ (link.NulFree → extra = []) := by
  obtain ⟨used, extra, hbytes, hdepth, hread, hnul⟩ := readsBack_serialize hop hlink
  refine ⟨used, extra, hbytes, fun rest => hread _ ?_ rest, hnul⟩
  simp only [List.length_append]
  omega

end Reads

/-! ## How much `deserialize` takes -/

/-- The bytes that `deserialize` takes for the link it returns. -/
inductive Wire : Link → Nat → Prop where
  | normal (target : Option ChunkId) (scope : LinkScope) : Wire (.normal target scope) 6
  | absoluteNormal (target : Option ChunkId) (scope : LinkScope) : Wire (.absoluteNormal target scope) 6
  | offset (target : ChunkId) (off : UInt64) (scope : LinkScope) : Wire (.offset target off scope) 14
  | plt (trampoline : Option ChunkId) : Wire (.plt 0 trampoline) 5
  | jumpTable (table : Option ChunkId) : Wire (.jumpTable table) 5
  | egalitoLoader (name : List UInt8) : Wire (.egalitoLoader name) (name.length + 2)
  | absoluteData (section_ : ChunkId) (offset : UInt64) : Wire (.absoluteData section_ offset 0 .unknown) 13
  | dataOffset (section_ : ChunkId) (offset : UInt64) (scope : LinkScope) :
      Wire (.dataOffset section_ offset 0 scope) 14
  | tlsDataOffset (tls : Option ChunkId) (symbol : Option CString) (target : UInt64) :
      Wire (.tlsDataOffset tls symbol target) (13 + (serializeSymbol symbol).length)
  | unresolved (target : UInt64) : Wire (.unresolved target) 9
  | unsupported : Wire (.unresolved 0) 1
  | immAndDisp (target : Option ChunkId) (scope : LinkScope) {disp : Link} {k : Nat} (h : Wire disp k) :
      Wire (.immAndDisp false target scope disp) (6 + k)

section Takes

variable {tree : Tree} {lookup : UInt32 → Option (Option ChunkId)}

theorem takes_deserializeLinkTarget : Takes (deserializeLinkTarget lookup) (fun _ k => k = 4) :=
  takes_readU32.bind fun id => (takes_lift (lookup id)).weaken fun _ _ h i hi => by omega

theorem takes_deserializeDataTarget : Takes (deserializeDataTarget tree lookup) (fun _ k => k = 12) :=
  takes_deserializeLinkTarget.bind fun target => (takes_lift _).bind fun section_ =>
    takes_readU64.bind_pure fun _ _ h _ hi _ hj => by omega

theorem takes_deserializeSymbol :
    Takes deserializeSymbol (fun symbol k => k = (serializeSymbol symbol).length) := by
  refine takes_readBool.bind fun hasSymbol => ?_
  cases hasSymbol with
  | false => exact (takes_pure none).weaken (by rintro _ _ ⟨rfl, rfl⟩ i rfl; rfl)
  | true =>
    refine takes_readString.bind_pure fun name k hk i hi => ?_
    simp [serializeSymbol, writeBool, writeU8, writeString, (takeWhile_ne_zero_eq_iff name).2 hk.1]
    omega

theorem takes_deserializeFields {nested : Reader Link} (hnested : Takes nested Wire) (type : EgalitoLinkType) :
    Takes (deserializeFields tree lookup nested type) (fun link k => Wire link (k + 1)) := by
  cases type with
  | absoluteNormal =>
    refine takes_readU8.bind fun scope => takes_deserializeLinkTarget.bind_pure ?_
    rintro target _ rfl _ rfl
    exact .absoluteNormal target ⟨scope⟩
  | normal =>
    refine takes_readU8.bind fun scope => takes_deserializeLinkTarget.bind_pure ?_
    rintro target _ rfl _ rfl
    exact .normal target ⟨scope⟩
  | offset =>
    refine takes_readU8.bind fun scope => takes_deserializeLinkTarget.bind fun _ =>
      (takes_lift _).bind fun target => takes_readU64.bind_pure ?_
    rintro off _ rfl _ ⟨-, rfl⟩ _ rfl _ rfl
    exact .offset target off ⟨scope⟩
  | plt =>
    refine takes_deserializeLinkTarget.bind_pure ?_
    rintro target _ rfl
    exact .plt _
  | jumpTable =>
    refine takes_deserializeLinkTarget.bind_pure ?_
    rintro target _ rfl
    exact .jumpTable _
  | egalitoLoader =>
    refine takes_readString.bind_pure ?_
    rintro name _ ⟨-, rfl⟩
    exact .egalitoLoader name
  | absoluteData =>
    refine takes_deserializeDataTarget.bind_pure ?_
    rintro ⟨section_, offset⟩ _ rfl
    exact .absoluteData section_ offset
  | dataOffset =>
    refine takes_readU8.bind fun scope => takes_deserializeDataTarget.bind_pure ?_
    rintro ⟨section_, offset⟩ _ rfl _ rfl
    exact .dataOffset section_ offset ⟨scope⟩
  | tlsDataOffset =>
    refine takes_deserializeLinkTarget.bind fun tls => takes_readU64.bind fun target =>
      takes_deserializeSymbol.bind_pure ?_
    rintro symbol _ rfl _ rfl _ rfl
    have h := Wire.tlsDataOffset (castTo tree .tlsDataRegion tls) symbol target
    rwa [show 13 + (serializeSymbol symbol).length = 4 + (8 + (serializeSymbol symbol).length) + 1 by omega] at h
  | unresolved =>
    refine takes_readU64.bind_pure ?_
    rintro target _ rfl
    exact .unresolved target
  | immAndDisp =>
    refine takes_readU8.bind fun scope => takes_deserializeLinkTarget.bind fun target => hnested.bind_pure ?_
    rintro disp k hk _ rfl _ rfl
    have h := Wire.immAndDisp target ⟨scope⟩ hk
    rwa [show 6 + k = 1 + (4 + k) + 1 by omega] at h
  | symbolOnly | marker | unknown =>
    exact (takes_pure _).weaken (by rintro _ _ ⟨rfl, rfl⟩; exact .unsupported)

theorem takes_deserializeDepth (fuel : Nat) : Takes (deserializeDepth tree lookup fuel) Wire := by
  induction fuel with
  | zero => exact fun s a s' h => nomatch h
  | succ fuel ih =>
    refine takes_readU8.bind fun type => takes_stillGood.bind fun good => ?_
    cases good with
    | false => exact (takes_pure _).weaken (fun _ _ _ i hi => absurd hi.1 (by decide))
    | true =>
      refine (takes_deserializeFields ih _).weaken ?_
      rintro link k hk _ ⟨-, rfl⟩ _ rfl
      rwa [show 1 + (0 + k) = k + 1 by omega]

theorem takes_deserializeLink : Takes (deserializeLink tree lookup) Wire :=
  fun s link s' h => takes_deserializeDepth (s.rest.length + 1) s link s' h

end Takes

theorem SameTarget.kind_eq {tree : Tree} {link back : Link} (h : SameTarget tree link back) :
    link.kind = back.kind := by
  cases h with
  | single kind => exact kind
  | pair => rfl

theorem SameTarget.address_eq {tree : Tree} {link back : Link} (h : SameTarget tree link back) :
    link.getTargetAddress tree = back.getTargetAddress tree := by
  cases h with
  | single _ _ _ address => exact address
  | pair => rfl

/-- The length of what `serialize` writes. -/
def Link.wireLength : Link → Nat
  | .absoluteNormal _ _ => 6
  | .normal _ _ => 6
  | .offset _ _ _ => 14
  | .plt _ _ => 5
  | .jumpTable _ => 5
  | .egalitoLoader name => name.length + 2
  | .absoluteData _ _ _ _ => 13
  | .internalAndExternalData _ _ _ _ _ => 13
  | .dataOffset _ _ _ _ => 14
  | .tlsDataOffset _ symbol _ => 13 + (serializeSymbol symbol).length
  | .unresolved _ => 9
  | .immAndDisp _ _ _ dispLink => 6 + dispLink.wireLength
  | _ => 1

theorem length_serialize (tree : Tree) (link : Link) (op : IDOperations) :
    (link.serialize tree op).1.length = link.wireLength := by
  induction link generalizing op with
  | immAndDisp absolute target scope disp ih =>
    have := ih (assign target op).2
    change (writeType .immAndDisp ++ (writeU8 scope.bits ++ (writeU32 (assign target op).1 ++
      (disp.serialize tree (assign target op).2).1))).length = _
    simp only [List.length_append, this, Link.wireLength, writeType, writeU8, writeU32, length_leBytes,
      List.length_singleton]
    omega
  | egalitoLoader name =>
    change (writeType _ ++ writeString name).length = _
    simp [Link.wireLength, writeType, writeU8, writeString]
  | tlsDataOffset tls symbol target =>
    change (writeType _ ++ (writeU32 (assign tls op).1 ++ (writeU64 target ++ serializeSymbol symbol))).length = _
    simp only [List.length_append, Link.wireLength, writeType, writeU8, writeU32, writeU64, length_leBytes,
      List.length_singleton]
    omega
  | _ => rfl

/-- A same link that was read took as many bytes as were written for it; only an
unresolved one can be read from fewer, the one byte of an unsupported kind. -/
theorem wireLength_le {tree : Tree} {link back : Link} {k : Nat} (hsame : SameTarget tree link back)
    (hwire : Wire back k) : link.wireLength ≤ k + 8 ∧
      (link.kind ≠ .unresolved → link.kind ≠ .immAndDisp → link.wireLength = k) := by
  induction hsame generalizing k with
  | @single link back kind hsingle _ _ name =>
    have heq : link.kind ≠ .unresolved → link.wireLength = k := by
      intro hne
      cases hwire with
      | egalitoLoader name' =>
        cases link <;> first | (cases kind; done) | (cases name; rfl)
      | tlsDataOffset tls symbol target => 
        cases link <;> first | (cases kind; done) | skip
        have hsymbol := Option.map_injective Subtype.val_injective name
        rw [hsymbol]
        rfl
      | unresolved => exact absurd kind hne
      | unsupported => exact absurd kind hne
      | immAndDisp => exact absurd kind hsingle
      | _ => cases link <;> first | (cases kind; done) | rfl
    by_cases hu : link.kind = .unresolved
    · cases link <;> cases hu
      exact ⟨by simp only [Link.wireLength]; cases hwire <;> first | (cases kind; done) | omega,
        fun h => absurd rfl h⟩
    · rw [heq hu]
      exact ⟨by omega, fun _ _ => rfl⟩
  | pair _ ih =>
    cases hwire with
    | immAndDisp _ _ h =>
      have := (ih h).1
      exact ⟨by simp only [Link.wireLength]; omega, fun _ h => absurd rfl h⟩

/-- No link can be read past as many of its bytes as the code of its type, and be the same. -/
theorem code_add_ne_wireLength {tree : Tree} {link back : Link} {k : Nat} (hsame : SameTarget tree link back)
    (hwire : Wire back k) : link.linkType.value.toNat + k ≠ link.wireLength := by
  obtain ⟨hle, heq⟩ := wireLength_le hsame hwire
  intro h
  by_cases hu : link.kind = .unresolved
  · cases link <;> cases hu
    simp only [Link.wireLength, Link.linkType, EgalitoLinkType.value, UInt8.reduceToNat] at h
    omega
  · by_cases hp : link.kind = .immAndDisp
    · cases link <;> cases hp
      simp only [Link.linkType, EgalitoLinkType.value, UInt8.reduceToNat] at h
      omega
    · rw [heq hu hp] at h
      have hzero : link.linkType = .unknown := by
        cases ht : link.linkType <;> rw [ht] at h <;> first | rfl | (simp [EgalitoLinkType.value] at h)
      have hkind := hsame.kind_eq
      cases hwire <;> cases link <;> first | (cases hkind; done) | cases hzero

/-! ## Which links come back -/

/-- The kinds that `serialize` and `deserialize` both have a case for, which store the
target: all but a name with a NUL and a pair whose first link is absolute. -/
def Link.KeepsTarget : Link → Prop
  | .normal _ _ => True
  | .absoluteNormal _ _ => True
  | .offset _ _ _ => True
  | .plt _ _ => True
  | .jumpTable _ => True
  | .egalitoLoader targetName => 0 ∉ targetName
  | .dataOffset _ _ _ _ => True
  | .absoluteData _ _ _ _ => True
  | .tlsDataOffset _ _ _ => True
  | .unresolved _ => True
  | .immAndDisp immAbsolute _ _ dispLink => immAbsolute = false ∧ dispLink.KeepsTarget
  | _ => False

/-- The scope of an absolute data link is not stored. -/
def Link.KeepsScope : Link → Prop
  | .absoluteData _ _ _ scope => scope = .unknown
  | .immAndDisp _ _ _ dispLink => dispLink.KeepsScope
  | _ => True

theorem Link.KeepsTarget.nulFree {link : Link} (h : link.KeepsTarget) : link.NulFree := by
  induction link with
  | egalitoLoader name => exact h
  | immAndDisp absolute target scope disp ih => exact ih h.2
  | _ => trivial

theorem sameTarget_restored_iff (tree : Tree) (link : Link) :
    SameTarget tree link link.restored ↔ link.KeepsTarget := by
  induction link with
  | immAndDisp absolute target scope disp ih =>
    constructor
    · intro h
      cases h with
      | single kind single => exact absurd rfl single
      | pair h => exact ⟨rfl, ih.1 h⟩
    · rintro ⟨rfl, h⟩
      exact .pair (ih.2 h)
  | egalitoLoader name =>
    constructor
    · intro h
      cases h with
      | single kind single target address name =>
        exact (takeWhile_ne_zero_eq_iff _).1 (Option.some.inj name).symm
    · intro h
      rw [Link.restored, (takeWhile_ne_zero_eq_iff name).2 h]
      exact .single rfl nofun rfl rfl rfl
  | dataOffset section_ target addend scope =>
    refine ⟨fun _ => trivial, fun _ => .single rfl nofun rfl ?_ rfl⟩
    simp [Link.restored, Link.getTargetAddress, UInt64.add_assoc]
  | absoluteData section_ target addend scope =>
    refine ⟨fun _ => trivial, fun _ => .single rfl nofun rfl ?_ rfl⟩
    simp [Link.restored, Link.getTargetAddress, UInt64.add_assoc]
  | _ =>
    refine ⟨fun h => ?_, fun h => ?_⟩
    · first
        | exact True.intro
        | cases h with
          | single kind => cases kind
    · first
        | exact .single rfl nofun rfl rfl rfl
        | cases h

theorem sameAttributes_restored_iff {link : Link} (h : link.KeepsTarget) :
    SameAttributes link link.restored ↔ link.KeepsScope := by
  induction link with
  | immAndDisp absolute target scope disp ih =>
    constructor
    · intro hsame
      cases hsame with
      | single single => exact absurd rfl single
      | pair hsame => exact (ih h.2).1 hsame
    · exact fun hscope => .pair ((ih h.2).2 hscope)
  | absoluteData section_ target addend scope =>
    constructor
    · intro hsame
      cases hsame with
      | single _ hscope => exact Option.some.inj hscope
    · rintro rfl
      exact .single nofun rfl rfl rfl rfl
  | _ =>
    refine ⟨fun _ => trivial, fun _ => ?_⟩
    first
      | exact .single nofun rfl rfl rfl rfl
      | cases h

/-- A link comes back as it was exactly when its kind has a case on both sides,
no name is cut short, and an absolute data link has no scope. -/
theorem link_round_trip_iff (tree : Tree) (lookup : UInt32 → Option (Option ChunkId)) (op : IDOperations)
    (link : Link) (hlink : link.WellTyped tree) (hop : Restores (link.serialize tree op).2 lookup) :
    link.RoundTrips tree lookup op ↔ link.KeepsTarget ∧ link.KeepsScope := by
  obtain ⟨used, extra, hbytes, hread, -⟩ := reads_deserializeLink hop hlink
  have hback : deserializeLink tree lookup ⟨(link.serialize tree op).1, true⟩ =
      some (link.restored, ⟨extra, true⟩) := by
    rw [hbytes]
    exact hread extra
  constructor
  · rintro ⟨back, rest, heq, htarget, hattributes⟩
    rw [hback, Option.some.injEq, Prod.mk.injEq] at heq
    rw [← heq.1] at htarget hattributes
    have hkeeps := (sameTarget_restored_iff tree link).1 htarget
    exact ⟨hkeeps, (sameAttributes_restored_iff hkeeps).1 hattributes⟩
  · rintro ⟨hkeeps, hscope⟩
    exact ⟨_, _, hback, (sameTarget_restored_iff tree link).2 hkeeps,
      (sameAttributes_restored_iff hkeeps).2 hscope⟩

/-- A tree for the examples: chunk 1 is a data section, and chunk `c` is at `256 * c`. -/
def sampleTree : Tree where
  chunkClass c := if c = 1 then .dataSection else .function
  getAddress c := 256 * UInt64.ofNat c
  getSize _ := 16
  getTLSOffset _ := 0
  getResolved _ := none
  loaderAddress _ := 0

/-- The ids of a writer that has assigned none but that of the root. -/
def sampleOps : IDOperations := ⟨[], 1⟩

theorem sampleOps_wf : sampleOps.Wf := ⟨by simp [sampleOps], by simp [sampleOps]⟩

/-- A relative link into a data section. -/
theorem link_round_trip_iff_sample :
    (Link.dataOffset 1 8 0 .withinModule).RoundTrips sampleTree (assign (some 1) sampleOps).2.lookup
      sampleOps :=
  (link_round_trip_iff sampleTree _ sampleOps (.dataOffset 1 8 0 .withinModule) rfl
    ((sampleOps_wf.assign (by decide) (some 1)).restores (by decide))).2 ⟨trivial, trivial⟩

/-- The absolute link that `createDataLink` makes for the same target loses its scope. -/
theorem absoluteData_not_restored :
    ¬ (Link.absoluteData 1 8 0 .withinModule).RoundTrips sampleTree (assign (some 1) sampleOps).2.lookup
      sampleOps := by
  rintro ⟨back, rest, heq, -, hattributes⟩
  have hback : deserializeLink sampleTree (assign (some 1) sampleOps).2.lookup
      ⟨((Link.absoluteData 1 8 0 .withinModule).serialize sampleTree sampleOps).1, true⟩ =
      some (.absoluteData 1 8 0 .unknown, ⟨[], true⟩) := by decide +kernel
  rw [hback, Option.some.injEq, Prod.mk.injEq] at heq
  rw [← heq.1] at hattributes
  cases hattributes with
  | single _ hscope => exact absurd hscope (by decide)

end Egalito.Serializer
