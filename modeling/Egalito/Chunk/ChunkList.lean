import Egalito.Lib.Index
import Egalito.Lib.Run
/-!
# `ChunkListImpl`

`chunk/chunklist.h`. A list of children with three aspects: the iterable one is
always there, the spatial and the named one are maps made at their first use.
-/

open Egalito.Lib

namespace Egalito.ChunkList

/-- What a list asks of its `ChildType`. -/
class ChildType (Child : Type) where
  getName : Child → String
  getAddress : Child → UInt64

open ChildType

variable {Child : Type}

/-! ## The three aspects -/

section Aspects

variable {κ : Type} [DecidableEq κ] (key : Child → κ)

/-- A `std::map` of children, filed under one of their properties. -/
def addKeyed (map : κ → Option Child) (child : Child) : κ → Option Child :=
  Function.update map (key child) (some child)

def removeKeyed (map : κ → Option Child) (child : Child) : κ → Option Child :=
  Function.update map (key child) none

end Aspects

variable [ChildType Child]

structure SpatialChunkList (Child : Type) where
  spaceMap : UInt64 → Option Child

def SpatialChunkList.empty : SpatialChunkList Child := ⟨fun _ => none⟩

def SpatialChunkList.add (l : SpatialChunkList Child) (child : Child) : SpatialChunkList Child :=
  ⟨addKeyed getAddress l.spaceMap child⟩

def SpatialChunkList.remove (l : SpatialChunkList Child) (child : Child) : SpatialChunkList Child :=
  ⟨removeKeyed getAddress l.spaceMap child⟩

def SpatialChunkList.find (l : SpatialChunkList Child) (address : UInt64) : Option Child := l.spaceMap address

structure NamedChunkList (Child : Type) where
  nameMap : String → Option Child

def NamedChunkList.empty : NamedChunkList Child := ⟨fun _ => none⟩

def NamedChunkList.add (l : NamedChunkList Child) (child : Child) : NamedChunkList Child :=
  ⟨addKeyed getName l.nameMap child⟩

def NamedChunkList.remove (l : NamedChunkList Child) (child : Child) : NamedChunkList Child :=
  ⟨removeKeyed getName l.nameMap child⟩

def NamedChunkList.find (l : NamedChunkList Child) (name : String) : Option Child := l.nameMap name

/-- The iterable list is the vector of its children. -/
structure ChunkListImpl (Child : Type) where
  iterable : List Child
  spatial : Option (SpatialChunkList Child)
  named : Option (NamedChunkList Child)

namespace ChunkListImpl

def empty : ChunkListImpl Child := ⟨[], none, none⟩

/-! ## Operations -/

def add (l : ChunkListImpl Child) (child : Child) : ChunkListImpl Child :=
  ⟨l.iterable ++ [child], l.spatial.map (·.add child), l.named.map (·.add child)⟩

/-- `IterableChunkList::remove` erases the first entry with this pointer. -/
def remove [DecidableEq Child] (l : ChunkListImpl Child) (child : Child) : ChunkListImpl Child :=
  ⟨l.iterable.erase child, l.spatial.map (·.remove child), l.named.map (·.remove child)⟩

def removeLast (l : ChunkListImpl Child) : ChunkListImpl Child :=
  match l.iterable.getLast? with
  | none => l
  | some last => ⟨l.iterable.dropLast, l.spatial.map (·.remove last), l.named.map (·.remove last)⟩

def createSpatial (l : ChunkListImpl Child) : SpatialChunkList Child := l.iterable.foldl .add .empty

def createNamed (l : ChunkListImpl Child) : NamedChunkList Child := l.iterable.foldl .add .empty

def getSpatial (l : ChunkListImpl Child) : SpatialChunkList Child × ChunkListImpl Child :=
  let spatial := l.spatial.getD l.createSpatial
  (spatial, { l with spatial := some spatial })

def getNamed (l : ChunkListImpl Child) : NamedChunkList Child × ChunkListImpl Child :=
  let named := l.named.getD l.createNamed
  (named, { l with named := some named })

def clearSpatial (l : ChunkListImpl Child) : ChunkListImpl Child := { l with spatial := none }

def clearNamed (l : ChunkListImpl Child) : ChunkListImpl Child := { l with named := none }

/-- The child is `none` when the `dynamic_cast` gives no `ChildType`. Inserting behind the
end of a vector is undefined. -/
def genericInsertAt (l : ChunkListImpl Child) (index : Nat) : Option Child → Option (ChunkListImpl Child)
  | none => some l
  | some v => if index ≤ l.iterable.length then some { l with iterable := l.iterable.insertIdx index v } else none

def genericAdd (l : ChunkListImpl Child) : Option Child → ChunkListImpl Child
  | none => l
  | some v => l.add v

def genericRemove [DecidableEq Child] (l : ChunkListImpl Child) : Option Child → ChunkListImpl Child
  | none => l
  | some v => l.remove v

def genericFind (l : ChunkListImpl Child) (name : String) : Option Child × ChunkListImpl Child :=
  (l.getNamed.1.find name, l.getNamed.2)

end ChunkListImpl

/-- The operations that change a list, the accesses that make an index included. -/
inductive Op (Child : Type)
  | add (child : Child)
  | remove (child : Child)
  | removeLast
  | genericAdd (child : Option Child)
  | genericRemove (child : Option Child)
  | genericInsertAt (index : Nat) (child : Option Child)
  | genericFind (name : String)
  | getSpatial
  | getNamed
  | clearSpatial
  | clearNamed

def step [DecidableEq Child] (l : ChunkListImpl Child) : Op Child → Option (ChunkListImpl Child)
  | .add child => some (l.add child)
  | .remove child => some (l.remove child)
  | .removeLast => some l.removeLast
  | .genericAdd child => some (l.genericAdd child)
  | .genericRemove child => some (l.genericRemove child)
  | .genericInsertAt index child => l.genericInsertAt index child
  | .genericFind name => some (l.genericFind name).2
  | .getSpatial => some l.getSpatial.2
  | .getNamed => some l.getNamed.2
  | .clearSpatial => some l.clearSpatial
  | .clearNamed => some l.clearNamed

/-! ## What the look-ups should give -/

/-- A look-up answers with the child that has this key, and with null when there is none. -/
def FindsExactly {κ : Type} (find : κ → Option Child) (key : Child → κ) (children : List Child) : Prop :=
  ∀ k, (∀ child, find k = some child ↔ child ∈ children ∧ key child = k) ∧
    (find k = none ↔ ∀ child ∈ children, key child ≠ k)

def LookupsExact (l : ChunkListImpl Child) : Prop :=
  FindsExactly l.getNamed.1.find getName l.iterable ∧
    FindsExactly l.getSpatial.1.find getAddress l.iterable

/-- The children stay pairwise distinct, and an insertion is at an index of the list. -/
def Distinct (l : ChunkListImpl Child) : Op Child → Prop
  | .add child | .genericAdd (some child) => child ∉ l.iterable
  | .genericInsertAt index (some child) => index ≤ l.iterable.length ∧ child ∉ l.iterable
  | _ => True

/-- An insertion while one of the indexes is there. -/
def InsertsBesideIndex (l : ChunkListImpl Child) : Op Child → Prop
  | .genericInsertAt _ (some _) => l.spatial.isSome ∨ l.named.isSome
  | _ => False

/-! ## One operation -/

/-- Each index that is there holds the children of the list. -/
structure Synced (l : ChunkListImpl Child) : Prop where
  nodup : l.iterable.Nodup
  spatial : ∀ s, l.spatial = some s → Indexes getAddress s.spaceMap l.iterable
  named : ∀ n, l.named = some n → Indexes getName n.nameMap l.iterable

theorem synced_empty : Synced (ChunkListImpl.empty : ChunkListImpl Child) :=
  ⟨List.nodup_nil, fun _ h => (nomatch h), fun _ h => (nomatch h)⟩

section Step

variable {l l' : ChunkListImpl Child}
variable (hname : Function.Injective (getName : Child → String))
variable (haddress : Function.Injective (getAddress : Child → UInt64))

theorem createSpatial_spaceMap (l : ChunkListImpl Child) : l.createSpatial.spaceMap =
    l.iterable.foldl (fun map child => Function.update map (getAddress child) (some child)) fun _ => none := by
  rw [ChunkListImpl.createSpatial]
  exact (List.foldl_hom SpatialChunkList.spaceMap fun _ _ => rfl).symm

theorem createNamed_nameMap (l : ChunkListImpl Child) : l.createNamed.nameMap =
    l.iterable.foldl (fun map child => Function.update map (getName child) (some child)) fun _ => none := by
  rw [ChunkListImpl.createNamed]
  exact (List.foldl_hom NamedChunkList.nameMap fun _ _ => rfl).symm

include haddress in
theorem Synced.indexes_getSpatial (h : Synced l) : Indexes getAddress l.getSpatial.1.spaceMap l.iterable := by
  change Indexes getAddress (l.spatial.getD l.createSpatial).spaceMap l.iterable
  cases hs : l.spatial with
  | some s => exact h.spatial s hs
  | none =>
    rw [Option.getD_none, createSpatial_spaceMap]
    exact indexes_foldl haddress h.nodup

include hname in
theorem Synced.indexes_getNamed (h : Synced l) : Indexes getName l.getNamed.1.nameMap l.iterable := by
  change Indexes getName (l.named.getD l.createNamed).nameMap l.iterable
  cases hn : l.named with
  | some n => exact h.named n hn
  | none =>
    rw [Option.getD_none, createNamed_nameMap]
    exact indexes_foldl hname h.nodup

include hname haddress

theorem Synced.lookupsExact (h : Synced l) : LookupsExact l := by
  have hn := h.indexes_getNamed hname
  have hs := h.indexes_getSpatial haddress
  exact ⟨fun k => ⟨hn k, hn.eq_none_iff k⟩, fun k => ⟨hs k, hs.eq_none_iff k⟩⟩

theorem Synced.add (h : Synced l) {child : Child} (hc : child ∉ l.iterable) : Synced (l.add child) where
  nodup := by
    refine List.nodup_append.2 ⟨h.nodup, List.nodup_singleton child, ?_⟩
    rintro a ha b hb rfl
    rw [List.mem_singleton] at hb
    exact hc (hb ▸ ha)
  spatial s hs := by
    obtain ⟨s₀, hs₀, rfl⟩ := Option.map_eq_some_iff.1 hs
    exact (h.spatial s₀ hs₀).add haddress hc
  named n hn := by
    obtain ⟨n₀, hn₀, rfl⟩ := Option.map_eq_some_iff.1 hn
    exact (h.named n₀ hn₀).add hname hc

/-- Both ways of removing: the children other than this one stay, in their order. -/
theorem Synced.removed (h : Synced l) {child : Child} {rest : List Child} (hnodup : rest.Nodup)
    (hrest : ∀ c, c ∈ rest ↔ c ∈ l.iterable ∧ c ≠ child) :
    Synced ⟨rest, l.spatial.map (·.remove child), l.named.map (·.remove child)⟩ where
  nodup := hnodup
  spatial s hs := by
    obtain ⟨s₀, hs₀, rfl⟩ := Option.map_eq_some_iff.1 hs
    exact (h.spatial s₀ hs₀).remove haddress hrest
  named n hn := by
    obtain ⟨n₀, hn₀, rfl⟩ := Option.map_eq_some_iff.1 hn
    exact (h.named n₀ hn₀).remove hname hrest

theorem Synced.remove [DecidableEq Child] (h : Synced l) (child : Child) : Synced (l.remove child) := by
  refine h.removed hname haddress (h.nodup.erase child) fun c => ?_
  rw [h.nodup.mem_erase_iff, and_comm]

theorem Synced.removeLast (h : Synced l) : Synced l.removeLast := by
  rw [ChunkListImpl.removeLast]
  split
  · exact h
  · rename_i last hlast
    obtain ⟨front, hl⟩ := List.getLast?_eq_some_iff.1 hlast
    have hnodup := h.nodup
    rw [hl, List.nodup_append] at hnodup
    obtain ⟨hfront, -, hne⟩ := hnodup
    rw [hl, List.dropLast_concat]
    refine h.removed hname haddress hfront fun c => ?_
    rw [hl, List.mem_append, List.mem_singleton]
    constructor
    · exact fun hc => ⟨.inl hc, hne c hc last (List.mem_singleton_self last)⟩
    · rintro ⟨hc | hc, hcl⟩
      · exact hc
      · exact absurd hc hcl

omit [ChildType Child] hname haddress in
theorem genericInsertAt_iff {index : Nat} {v : Child} : l.genericInsertAt index (some v) = some l' ↔
    index ≤ l.iterable.length ∧ l' = { l with iterable := l.iterable.insertIdx index v } := by
  rw [ChunkListImpl.genericInsertAt]
  split <;> simp_all [eq_comm]

variable [DecidableEq Child]

/-- Every operation keeps the indexes up to date, an insertion beside one of them apart. -/
theorem Synced.step {op : Op Child} (h : Synced l) (hop : Distinct l op) (hi : ¬ InsertsBesideIndex l op)
    (hstep : step l op = some l') : Synced l' := by
  cases op with
  | add child => exact Option.some.inj hstep ▸ h.add hname haddress hop
  | remove child => exact Option.some.inj hstep ▸ h.remove hname haddress child
  | removeLast => exact Option.some.inj hstep ▸ h.removeLast hname haddress
  | genericAdd child =>
    cases Option.some.inj hstep
    cases child with
    | none => exact h
    | some v => exact h.add hname haddress hop
  | genericRemove child =>
    cases Option.some.inj hstep
    cases child with
    | none => exact h
    | some v => exact h.remove hname haddress v
  | genericInsertAt index child =>
    cases child with
    | none => exact Option.some.inj hstep ▸ h
    | some v =>
      obtain ⟨hindex, rfl⟩ := genericInsertAt_iff.1 hstep
      simp only [InsertsBesideIndex, not_or, Option.not_isSome_iff_eq_none] at hi
      refine ⟨?_, fun s hs => ?_, fun n hn => ?_⟩
      · exact (List.perm_insertIdx v l.iterable hindex).nodup_iff.2 (List.nodup_cons.2 ⟨hop.2, h.nodup⟩)
      · exact absurd (hs.symm.trans hi.1) (by simp)
      · exact absurd (hn.symm.trans hi.2) (by simp)
  | genericFind name =>
    cases Option.some.inj hstep
    exact ⟨h.nodup, h.spatial, fun n hn => Option.some.inj hn ▸ h.indexes_getNamed hname⟩
  | getSpatial =>
    cases Option.some.inj hstep
    exact ⟨h.nodup, fun s hs => Option.some.inj hs ▸ h.indexes_getSpatial haddress, h.named⟩
  | getNamed =>
    cases Option.some.inj hstep
    exact ⟨h.nodup, h.spatial, fun n hn => Option.some.inj hn ▸ h.indexes_getNamed hname⟩
  | clearSpatial =>
    cases Option.some.inj hstep
    exact ⟨h.nodup, fun _ hs => (nomatch hs), h.named⟩
  | clearNamed =>
    cases Option.some.inj hstep
    exact ⟨h.nodup, h.spatial, fun _ hn => (nomatch hn)⟩

omit hname haddress in
/-- A child inserted beside an index is in the list, but not in that index. -/
theorem Synced.not_lookupsExact {op : Op Child} (h : Synced l) (hop : Distinct l op) (hi : InsertsBesideIndex l op) :
    ∃ l', ChunkList.step l op = some l' ∧ ¬ LookupsExact l' := by
  cases op with
  | genericInsertAt index child =>
    cases child with
    | none => exact hi.elim
    | some v =>
      refine ⟨_, genericInsertAt_iff.2 ⟨hop.1, rfl⟩, fun hexact => ?_⟩
      have hv : v ∈ l.iterable.insertIdx index v := (List.mem_insertIdx hop.1).2 (.inl rfl)
      rcases hi with hi | hi
      · obtain ⟨s, hs⟩ := Option.isSome_iff_exists.1 hi
        refine (h.spatial s hs).not_of_mem hop.2 hv fun k => ?_
        have hfind := (hexact.2 k).1
        simpa only [ChunkListImpl.getSpatial, hs, Option.getD_some, SpatialChunkList.find] using hfind
      · obtain ⟨n, hn⟩ := Option.isSome_iff_exists.1 hi
        refine (h.named n hn).not_of_mem hop.2 hv fun k => ?_
        have hfind := (hexact.1 k).1
        simpa only [ChunkListImpl.getNamed, hn, Option.getD_some, NamedChunkList.find] using hfind
  | _ => exact hi.elim

/-! ## Runs -/

theorem Synced.run_lookupsExact_iff (h : Synced l) {ops : List (Op Child)}
    (hops : Along ChunkList.step Distinct l ops) :
    (∀ n l', (ops.take n).foldlM ChunkList.step l = some l' → LookupsExact l') ↔
      Along ChunkList.step (fun l op => ¬ InsertsBesideIndex l op) l ops := by
  induction ops generalizing l with
  | nil =>
    simp only [List.take_nil, List.foldlM_nil, Option.pure_def, Option.some.injEq, Along, iff_true]
    rintro _ l' rfl
    exact h.lookupsExact hname haddress
  | cons op ops ih =>
    obtain ⟨hop, hrest⟩ := hops
    constructor
    · intro hexact
      have hi : ¬ InsertsBesideIndex l op := by
        intro hi
        obtain ⟨l₁, hl₁, hne⟩ := h.not_lookupsExact hop hi
        exact hne (hexact 1 l₁ (by simp [hl₁]))
      refine ⟨hi, fun l₁ hl₁ => ?_⟩
      refine (ih (h.step hname haddress hop hi hl₁) (hrest l₁ hl₁)).1 fun n l' hl' => hexact (n + 1) l' ?_
      rw [List.take_succ_cons, List.foldlM_cons, hl₁]
      exact hl'
    · rintro ⟨hi, hall⟩ n l' hrun
      cases n with
      | zero =>
        cases Option.some.inj hrun
        exact h.lookupsExact hname haddress
      | succ n =>
        rw [List.take_succ_cons, List.foldlM_cons, Option.bind_eq_bind, Option.bind_eq_some_iff] at hrun
        obtain ⟨l₁, hl₁, hrun⟩ := hrun
        exact (ih (h.step hname haddress hop hi hl₁) (hrest l₁ hl₁)).2 (hall l₁ hl₁) n l' hrun

/-- Along any run on children with names and addresses of their own, the look-ups are exact
in every state if and only if no child is inserted beside an index. -/
theorem lookups_exact_iff (ops : List (Op Child)) (hops : Along ChunkList.step Distinct .empty ops) :
    (∀ n l', (ops.take n).foldlM ChunkList.step .empty = some l' → LookupsExact l') ↔
      Along ChunkList.step (fun l op => ¬ InsertsBesideIndex l op) .empty ops :=
  synced_empty.run_lookupsExact_iff hname haddress hops

end Step

/-! ## Two children -/

/-- Functions `f` and `g`, at addresses of their own. -/
instance : ChildType Bool where
  getName g := if g then "g" else "f"
  getAddress g := if g then 0x1010 else 0x1000

theorem getName_injective : Function.Injective (getName : Bool → String) := by decide

theorem getAddress_injective : Function.Injective (getAddress : Bool → UInt64) := by decide

/-- The index is made first, then `g` is put before `f`. -/
def insertBesideNamed : List (Op Bool) := [.add false, .getNamed, .genericInsertAt 0 (some true)]

theorem inserted_child_not_found :
    ∃ l, insertBesideNamed.foldlM step .empty = some l ∧ Along step Distinct .empty insertBesideNamed ∧
      true ∈ l.iterable ∧ l.getNamed.1.find (getName true) = none ∧ ¬ LookupsExact l := by
  refine ⟨_, rfl, ?_, List.mem_cons_self, rfl, ?_⟩
  · refine ⟨by simp [Distinct, ChunkListImpl.empty], fun l hl => ⟨trivial, fun l₁ hl₁ => ⟨?_, fun _ _ => trivial⟩⟩⟩
    cases Option.some.inj hl
    cases Option.some.inj hl₁
    exact ⟨Nat.zero_le _, by decide⟩
  · intro hexact
    have hnone := ((hexact.1 (getName true)).2.1 rfl) true List.mem_cons_self
    exact hnone rfl

/-- Put before `f` first, `g` is found. -/
def insertThenNamed : List (Op Bool) := [.add false, .genericInsertAt 0 (some true), .getNamed]

theorem lookups_exact_two : ∃ l, insertThenNamed.foldlM step .empty = some l ∧ LookupsExact l := by
  refine ⟨_, rfl, (lookups_exact_iff getName_injective getAddress_injective insertThenNamed ?_).2 ?_ 3 _ rfl⟩
  · refine ⟨by simp [Distinct, ChunkListImpl.empty], fun l hl => ⟨?_, fun _ _ => ⟨trivial, fun _ _ => trivial⟩⟩⟩
    cases Option.some.inj hl
    exact ⟨Nat.zero_le _, by decide⟩
  · refine ⟨id, fun l hl => ⟨?_, fun _ _ => ⟨id, fun _ _ => trivial⟩⟩⟩
    cases Option.some.inj hl
    simp [InsertsBesideIndex, ChunkListImpl.add, ChunkListImpl.empty]

end Egalito.ChunkList
