import Egalito.Chunk.GSTable
import Egalito.Lib.Saturate
/-!
# The required entries of the GS table

`JitGSSetup` of `pass/jitgssetup.cpp`: functions are requested by name, and
`makeRequiredEntries` goes over the table until the code of all entries finds what
it refers to in the table. A thrown string ends the program.
-/

open Relation Egalito.Lib

namespace Egalito.Pass.JitGSSetup

open Egalito.Chunk (GSTable GSTableEntry)

/-! ## The program -/

/-- The chunks that entries are made for, and that links are to. -/
inductive Chunk (F P I : Type) where
  | function (f : F)
  | pltTrampoline (p : P)
  | instruction (i : I)
deriving DecidableEq, Fintype

/-- The link of a data variable: a `NormalLink` to one of these chunks, or any other link, by its target if that is one. -/
inductive Dest (C : Type) where
  | normalLink (target : C)
  | otherLink (target : Option C)

def Dest.target {C : Type} : Dest C → Option C
  | normalLink target => some target
  | otherLink target => target

/-- The link of an instruction. A data link has a section and an address; `otherLink` is any class whose `getTarget` gives
the target. -/
inductive Link (C S : Type) where
  | dataOffsetLink (section_ : S) (targetAddress : BitVec 64)
  | absoluteDataLink (section_ : S) (targetAddress : BitVec 64)
  | immAndDispLink (immLink dispLink : Link C S)
  | otherLink (target : Option C)

structure JumpTable (F C : Type) where
  function : F
  /-- The links of the entries. -/
  children : List (Option (Dest C))

structure Program (F P I S M : Type) [Fintype F] [Fintype P] [Fintype I] where
  /-- The links of the instructions of a function, block by block. -/
  functionChildren : F → List (List (Option (Link (Chunk F P I) S)))
  pltChildren : P → List (List (Option (Link (Chunk F P I) S)))
  hasName : F → String → Bool
  module : F → M
  jumpTableList : M → List (JumpTable F (Chunk F P I))
  /-- `getTarget()` of a trampoline. -/
  getTarget : P → Option (Chunk F P I)
  /-- `CIter::spatial(sec)->find(address)`, with the link of the variable. -/
  find : S → BitVec 64 → Option (Option (Dest (Chunk F P I)))
  /-- The chunks can be told apart by a `GSTableEntry::IndexType`. -/
  fits : Fintype.card (Chunk F P I) ≤ 2 ^ 32

variable {F P I S M : Type} [Fintype F] [Fintype P] [Fintype I]

/-- What libegalito cannot throw in JIT code, and other error cases. -/
def errorNames : List String :=
  ["_Unwind_Resume", "_Unwind_RaiseException", "_Unwind_Resume_or_Rethrow", "__cxa_throw",
    "__cxa_throw_bad_array_new_length", "__cxa_allocate_exception", "__cxa_call_unexpected", "__cxa_bad_cast",
    "__cxa_begin_catch", "__cxa_rethrow", "__cxa_end_catch", "_ZSt18uncaught_exceptionv",
    "_ZSt19__throw_ios_failurePKc", "_ZSt19__throw_logic_errorPKc", "_ZSt20__throw_length_errorPKc",
    "_ZSt21__throw_runtime_errorPKc", "_ZSt24__throw_out_of_range_fmtPKcz", "_ZSt16__throw_bad_castv",
    "_ZNSt9bad_allocD2Ev", "_ZN9__gnu_cxx20recursive_init_errorD2Ev",
    "_ZN9__gnu_cxx30__throw_concurrence_lock_errorEv", "_ZN9__gnu_cxx32__throw_concurrence_unlock_errorEv",
    "_ZN9__gnu_cxx26__concurrence_unlock_errorD1Ev", "_ZN9__gnu_cxx26__throw_insufficient_spaceEPKcS1_",
    "_ZSt13get_terminatev", "_ZN10__cxxabiv111__terminateEPFvvE", "_ZNSt9exceptionD1Ev", "unwind_cleanup",
    "unwind_stop", "_Unwind_ForcedUnwind", "__assert_fail", "__stack_chk_fail", "__malloc_assert",
    "malloc_printerr", "__libc_fatal", "__libc_message", "abort", "__pthread_unwind"]

def dynamicNames : List String := ["__libc_dlopen_mode", "__libc_dlsym", "_dl_vdso_vsym", "pthread_key_create"]

/-! ## The entries -/

abbrev Table (F P I : Type) := GSTable (Chunk F P I)

namespace Program

variable (program : Program F P I S M)

/-- The name of the function is excluded. -/
def excluded (f : F) : Bool := errorNames.any (program.hasName f) || dynamicNames.any (program.hasName f)

/-- An instruction has no children. -/
def children : Chunk F P I → List (List (Option (Link (Chunk F P I) S)))
  | .function f => program.functionChildren f
  | .pltTrampoline p => program.pltChildren p
  | .instruction _ => []

/-- What `makeRequiredEntriesFor` takes for the target of a link. -/
def target : Link (Chunk F P I) S → Except String (Option (Chunk F P I))
  | .dataOffsetLink sec address =>
    match program.find sec address with
    | some (some (.normalLink target)) => .ok (some target)
    | _ => .ok none
  | .absoluteDataLink _ _ => .ok none
  | .immAndDispLink _ _ => .error "ImmAndDispLink not handled"
  | .otherLink target => .ok target

variable [DecidableEq F] [DecidableEq P] [DecidableEq I]

def makeReservedEntryFor (gsTable : Table F P I) (target : Chunk F P I) : Except String (Table F P I) :=
  match gsTable.makeReservedEntryFor target with
  | some (_, gsTable) => .ok gsTable
  | none => .error "reserving()"

def makeJumpTableEntries (function : F) (gsTable : Table F P I) (jt : JumpTable F (Chunk F P I)) :
    Except String (Table F P I) :=
  if jt.function = function then
    jt.children.foldlM (fun gsTable je => match je with
      | some (.normalLink target) => makeReservedEntryFor gsTable target
      | _ => .ok gsTable) gsTable
  else .ok gsTable

def makeResolvedEntryForFunction (gsTable : Table F P I) (function : F) : Except String (Table F P I) :=
  if program.excluded function then .ok gsTable
  else do
    let gsTable ← makeReservedEntryFor gsTable (.function function)
    (program.jumpTableList (program.module function)).foldlM (makeJumpTableEntries function) gsTable

def makeResolvedEntryForPLT (gsTable : Table F P I) (plt : P) : Except String (Table F P I) :=
  match program.getTarget plt with
  | none => .ok gsTable
  | some target => do
    let gsTable ← makeReservedEntryFor gsTable (.pltTrampoline plt)
    makeReservedEntryFor gsTable target

/-- The body of the loops over blocks and instructions. -/
def makeRequiredEntriesForLink (gsTable : Table F P I) : Option (Link (Chunk F P I) S) → Except String (Table F P I)
  | none => .ok gsTable
  | some link => do
    match ← program.target link with
    | some (.function f) => program.makeResolvedEntryForFunction gsTable f
    | some (.pltTrampoline plt) => program.makeResolvedEntryForPLT gsTable plt
    | _ => .ok gsTable

def makeRequiredEntriesFor (gsTable : Table F P I) (chunk : Chunk F P I) : Except String (Table F P I) :=
  (program.children chunk).flatten.foldlM program.makeRequiredEntriesForLink gsTable

/-- The body of the inner loop; without an entry a null pointer is used. -/
def makeRequiredEntriesAt (gsTable : Table F P I) (i : Nat) : Except String (Table F P I) :=
  match gsTable.getAtIndex (UInt32.ofNat i) with
  | none => .error "table overflow?"
  | some entry =>
    match entry.target with
    | .instruction _ => .ok gsTable
    | target => program.makeRequiredEntriesFor gsTable target

/-- `none` is a loop of more rounds than the fuel. -/
def makeRequiredEntries : Nat → Table F P I → Option (Except String (Table F P I))
  | 0, _ => none
  | fuel + 1, gsTable =>
    let count := gsTable.children.length
    match (List.range count).foldlM program.makeRequiredEntriesAt gsTable with
    | .error e => some (.error e)
    | .ok gsTable => if gsTable.children.length = count then some (.ok gsTable) else makeRequiredEntries fuel gsTable

/-- `visit`, before the end of the reservation, for the functions that are requested by name. -/
def visit (requested : List F) (fuel : Nat) : Option (Except String (Table F P I)) :=
  match requested.foldlM program.makeResolvedEntryForFunction .new with
  | .error e => some (.error e)
  | .ok gsTable => program.makeRequiredEntries fuel gsTable

/-! ## What brings what -/

section Tables

variable {F P I : Type}

def targets (gsTable : Table F P I) : List (Chunk F P I) := gsTable.children.map GSTableEntry.target

/-- A table in the state of reservation. -/
structure Ready (gsTable : Table F P I) : Prop where
  mirrors : gsTable.Mirrors
  reserved : gsTable.reserved = 0

/-- A table against the list of its targets, unless both fail. -/
def Agrees : Except String (Table F P I) → Except String (List (Chunk F P I)) → Prop
  | .ok gsTable, .ok l => Ready gsTable ∧ targets gsTable = l
  | .error e, .error e' => e = e'
  | _, _ => False

variable [DecidableEq F] [DecidableEq P] [DecidableEq I]

theorem agrees_reserve {gsTable : Table F P I} (h : Ready gsTable) (target : Chunk F P I) :
    Agrees (makeReservedEntryFor gsTable target) (.ok (addAll (targets gsTable) [target])) := by
  have hreserving : gsTable.reserving = true := by rw [GSTable.reserving, h.reserved]; rfl
  rw [makeReservedEntryFor, GSTable.makeReservedEntryFor, if_pos hreserving, addAll, List.foldl_cons, List.foldl_nil, addNew]
  rcases hentry : gsTable.getEntryFor target with _ | entry
  · have hmem : target ∉ targets gsTable := h.mirrors.getEntryFor_eq_none.1 hentry
    rw [if_neg hmem, GSTable.makeEntryFor, hentry]
    exact ⟨⟨h.mirrors.add hentry, h.reserved⟩, List.map_append⟩
  · have hmem : target ∈ targets gsTable := by
      by_contra hmem
      rw [h.mirrors.getEntryFor_eq_none.2 hmem] at hentry
      cases hentry
    rw [if_pos hmem, GSTable.makeEntryFor, hentry]
    exact ⟨h, rfl⟩

omit [DecidableEq F] [DecidableEq P] [DecidableEq I] in
theorem Agrees.bind {r : Except String (Table F P I)} {o : Except String (List (Chunk F P I))} (h : Agrees r o)
    {f : Table F P I → Except String (Table F P I)} {g : List (Chunk F P I) → Except String (List (Chunk F P I))}
    (hf : ∀ gsTable, Ready gsTable → Agrees (f gsTable) (g (targets gsTable))) : Agrees (r >>= f) (o >>= g) := by
  match r, o, h with
  | .ok gsTable, .ok l, ⟨hready, hl⟩ => exact hl ▸ hf gsTable hready
  | .error e, .error e', he => exact he

/-- A loop, where each turn adds what its element brings. -/
theorem agrees_foldlM {β : Type} {xs : List β} {f : Table F P I → β → Except String (Table F P I)}
    {b : β → Except String (List (Chunk F P I))}
    (hf : ∀ x ∈ xs, ∀ gsTable, Ready gsTable → Agrees (f gsTable x) ((b x).map (addAll (targets gsTable))))
    {gsTable : Table F P I} (h : Ready gsTable) :
    Agrees (xs.foldlM f gsTable) (((xs.mapM b).map List.flatten).map (addAll (targets gsTable))) := by
  induction xs generalizing gsTable with
  | nil => exact ⟨h, rfl⟩
  | cons x xs ih =>
    have hx := hf x List.mem_cons_self gsTable h
    rw [List.foldlM_cons, List.mapM_cons]
    cases hb : b x with
    | error e =>
      rw [hb] at hx
      match f gsTable x, hx with
      | .error e', he => exact he
    | ok new =>
      rw [hb] at hx
      match f gsTable x, hx with
      | .ok gsTable', ⟨hready, hl⟩ =>
        have hrest := ih (fun y hy => hf y (List.mem_cons_of_mem x hy)) hready
        change Agrees (xs.foldlM f gsTable') _
        rw [hl] at hrest
        cases hxs : xs.mapM b with
        | error e =>
          rw [hxs] at hrest
          exact hrest
        | ok news =>
          rw [hxs] at hrest
          change Agrees _ (.ok (addAll (targets gsTable) (new ++ news.flatten)))
          rw [addAll_append]
          exact hrest

/-- The same, where nothing fails. -/
theorem agrees_foldlM_ok {β : Type} {xs : List β} {f : Table F P I → β → Except String (Table F P I)}
    {g : β → List (Chunk F P I)}
    (hf : ∀ x ∈ xs, ∀ gsTable, Ready gsTable → Agrees (f gsTable x) (.ok (addAll (targets gsTable) (g x))))
    {gsTable : Table F P I} (h : Ready gsTable) :
    Agrees (xs.foldlM f gsTable) (.ok (addAll (targets gsTable) (xs.flatMap g))) := by
  have hmap : xs.mapM (fun x => (.ok (g x) : Except String (List (Chunk F P I)))) = .ok (xs.map g) := List.mapM_pure
  have hloop := agrees_foldlM (b := fun x => .ok (g x)) hf h
  rw [hmap] at hloop
  exact hloop

end Tables

/-- The entries of the jump tables of a function. -/
def jumpTableEntries (f : F) : List (Dest (Chunk F P I)) :=
  (program.jumpTableList (program.module f)).flatMap fun jt => if jt.function = f then jt.children.filterMap id else []

def normalTarget : Dest (Chunk F P I) → Option (Chunk F P I)
  | .normalLink target => some target
  | .otherLink _ => none

def resolvedForFunction (f : F) : List (Chunk F P I) :=
  if program.excluded f then [] else .function f :: (program.jumpTableEntries f).filterMap normalTarget

def resolvedForPLT (plt : P) : List (Chunk F P I) :=
  match program.getTarget plt with
  | none => []
  | some target => [.pltTrampoline plt, target]

def resolved : Option (Chunk F P I) → List (Chunk F P I)
  | some (.function f) => program.resolvedForFunction f
  | some (.pltTrampoline plt) => program.resolvedForPLT plt
  | _ => []

def bringsLink : Option (Link (Chunk F P I) S) → Except String (List (Chunk F P I))
  | none => .ok []
  | some link => (program.target link).map program.resolved

/-- What the code of an entry brings. -/
def brings (chunk : Chunk F P I) : Except String (List (Chunk F P I)) :=
  ((program.children chunk).flatten.mapM program.bringsLink).map List.flatten

variable {program} {gsTable : Table F P I}

theorem agrees_function (h : Ready gsTable) (f : F) : Agrees (program.makeResolvedEntryForFunction gsTable f)
    (.ok (addAll (targets gsTable) (program.resolvedForFunction f))) := by
  rw [makeResolvedEntryForFunction, resolvedForFunction]
  split_ifs with hexcluded
  · exact ⟨h, rfl⟩
  · have htables : ∀ gsTable : Table F P I, Ready gsTable →
        Agrees ((program.jumpTableList (program.module f)).foldlM (makeJumpTableEntries f) gsTable)
          (.ok (addAll (targets gsTable) ((program.jumpTableEntries f).filterMap normalTarget))) := by
      intro gsTable h
      rw [jumpTableEntries, List.filterMap_flatMap]
      refine agrees_foldlM_ok (fun jt _ gsTable h => ?_) h
      rw [makeJumpTableEntries]
      split_ifs with hf
      · have hentries : (jt.children.filterMap id).filterMap normalTarget =
            jt.children.flatMap fun je => (je.bind normalTarget).toList := by
          rw [List.filterMap_filterMap]
          exact List.filterMap_eq_flatMap_toList ..
        rw [hentries]
        refine agrees_foldlM_ok (fun je _ gsTable h => ?_) h
        match je with
        | some (.normalLink target) => exact agrees_reserve h target
        | some (.otherLink _) => exact ⟨h, rfl⟩
        | none => exact ⟨h, rfl⟩
      · exact ⟨h, rfl⟩
    exact (agrees_reserve h (.function f)).bind
      (g := fun l => .ok (addAll l ((program.jumpTableEntries f).filterMap normalTarget))) htables

theorem agrees_plt (h : Ready gsTable) (plt : P) : Agrees (program.makeResolvedEntryForPLT gsTable plt)
    (.ok (addAll (targets gsTable) (program.resolvedForPLT plt))) := by
  rw [makeResolvedEntryForPLT, resolvedForPLT]
  cases program.getTarget plt with
  | none => exact ⟨h, rfl⟩
  | some target =>
    exact (agrees_reserve h (.pltTrampoline plt)).bind (g := fun l => .ok (addAll l [target])) fun _ h => agrees_reserve h target

theorem agrees_requiredFor (h : Ready gsTable) (chunk : Chunk F P I) :
    Agrees (program.makeRequiredEntriesFor gsTable chunk) ((program.brings chunk).map (addAll (targets gsTable))) := by
  refine agrees_foldlM (fun link _ gsTable h => ?_) h
  match link with
  | none => exact ⟨h, rfl⟩
  | some link =>
    rw [makeRequiredEntriesForLink, bringsLink]
    cases program.target link with
    | error e => exact rfl
    | ok target =>
      match target with
      | some (.function f) => exact agrees_function h f
      | some (.pltTrampoline plt) => exact agrees_plt h plt
      | some (.instruction _) => exact ⟨h, rfl⟩
      | none => exact ⟨h, rfl⟩

/-! ## The rounds -/

omit [Fintype F] [Fintype P] [Fintype I] [DecidableEq F] [DecidableEq P] [DecidableEq I] in
theorem length_targets (gsTable : Table F P I) : (targets gsTable).length = gsTable.children.length := List.length_map ..

/-- A turn of the inner loop, while the table has not lost the entry. -/
theorem agrees_requiredAt (h : Ready gsTable) {i : Nat} (hi : i < 2 ^ 32) {chunk : Chunk F P I}
    (hchunk : (targets gsTable)[i]? = some chunk) :
    Agrees (program.makeRequiredEntriesAt gsTable i) ((program.brings chunk).map (addAll (targets gsTable))) := by
  rw [targets, List.getElem?_map, Option.map_eq_some_iff] at hchunk
  obtain ⟨entry, hentry, rfl⟩ := hchunk
  have hindex : gsTable.getAtIndex (UInt32.ofNat i) = some entry := by
    rw [GSTable.getAtIndex_eq, UInt32.toNat_ofNat_of_lt' (by simp only [UInt32.size]; omega), hentry]
  rw [makeRequiredEntriesAt, hindex]
  dsimp only
  split
  · rename_i i hinstruction
    rw [hinstruction]
    exact ⟨h, rfl⟩
  · exact agrees_requiredFor h entry.target

/-- The turns for the entries `xs`, which are behind the entries `front`. -/
theorem agrees_turns (front xs : List (Chunk F P I)) (hlength : front.length + xs.length ≤ 2 ^ 32) (h : Ready gsTable)
    (hstarts : front ++ xs <+: targets gsTable) :
    Agrees ((List.range' front.length xs.length).foldlM program.makeRequiredEntriesAt gsTable)
      (bringAll program.brings xs (targets gsTable)) := by
  induction xs generalizing front gsTable with
  | nil => exact ⟨h, rfl⟩
  | cons x xs ih =>
    have hchunk : (targets gsTable)[front.length]? = some x := by
      obtain ⟨back, hback⟩ := hstarts
      rw [← hback, List.append_assoc, List.getElem?_append_right (Nat.le_refl _), Nat.sub_self]
      rfl
    rw [List.length_cons] at hlength
    have hturn : Agrees (program.makeRequiredEntriesAt gsTable front.length)
        ((program.brings x).map (addAll (targets gsTable))) := agrees_requiredAt h (by omega) hchunk
    rw [List.length_cons, List.range'_succ, List.foldlM_cons, bringAll_cons]
    cases hx : program.brings x with
    | error e =>
      rw [hx] at hturn
      match program.makeRequiredEntriesAt gsTable front.length, hturn with
      | .error e', he => exact he
    | ok new =>
      rw [hx] at hturn
      match program.makeRequiredEntriesAt gsTable front.length, hturn with
      | .ok gsTable', ⟨hready, hl⟩ =>
        have hrest := @ih gsTable' (front ++ [x]) (by rw [List.length_append, List.length_singleton]; omega) hready
          (by rw [hl, List.append_assoc]; exact hstarts.trans (prefix_addAll _ new))
        rw [hl, List.length_append, List.length_singleton] at hrest
        exact hrest

variable (program) in
/-- The loop of the rounds, on the table and on the list of its targets. -/
theorem makeRequiredEntries_eq (fuel : Nat) (h : Ready gsTable) :
    match program.makeRequiredEntries fuel gsTable, saturate program.brings fuel (targets gsTable) with
    | some r, some o => Agrees r o
    | none, none => True
    | _, _ => False := by
  induction fuel generalizing gsTable with
  | zero => trivial
  | succ fuel ih =>
    have hlength : (targets gsTable).length ≤ 2 ^ 32 := h.mirrors.nodup_targets.length_le_card.trans program.fits
    have hround : Agrees ((List.range gsTable.children.length).foldlM program.makeRequiredEntriesAt gsTable)
        (bringAll program.brings (targets gsTable) (targets gsTable)) := by
      rw [← length_targets, List.range_eq_range']
      exact agrees_turns [] (targets gsTable) (by simpa using hlength) h List.prefix_rfl
    rw [makeRequiredEntries, saturate]
    rcases hr : (List.range gsTable.children.length).foldlM program.makeRequiredEntriesAt gsTable with e | gsTable' <;>
      rcases ho : bringAll program.brings (targets gsTable) (targets gsTable) with e' | l <;> rw [hr, ho] at hround
    · exact hround
    · exact False.elim hround
    · exact False.elim hround
    · obtain ⟨hready, rfl⟩ := hround
      simp only [length_targets]
      by_cases hsame : gsTable'.children.length = gsTable.children.length
      · rw [if_pos hsame, if_pos hsame]
        exact ⟨hready, rfl⟩
      · rw [if_neg hsame, if_neg hsame]
        exact ih hready

/-! ## The reserved entries -/

variable (program) in
/-- What has an entry in the end: what is brought by the requested functions. -/
def Reserved (requested : List F) (chunk : Chunk F P I) : Prop :=
  Brought program.brings (requested.flatMap program.resolvedForFunction) chunk

omit [Fintype F] [Fintype P] [Fintype I] [DecidableEq F] [DecidableEq P] [DecidableEq I] in
theorem ready_new : Ready (.new : Table F P I) := ⟨GSTable.mirrors_new, rfl⟩

/-- The pass ends on every program. Its entries are those that are brought, unless the code of one of them has an
instruction with two links. -/
theorem visit_finds (program : Program F P I S M) (requested : List F) :
    ∃ depth, ∀ fuel ≥ depth, ∃ outcome, program.visit requested fuel = some outcome ∧
      match outcome with
      | .ok gsTable => (∀ chunk, (gsTable.getEntryFor chunk).isSome ↔ program.Reserved requested chunk) ∧
          ∀ chunk, program.Reserved requested chunk → ∃ new, program.brings chunk = .ok new
      | .error e => ∃ chunk, program.Reserved requested chunk ∧ program.brings chunk = .error e := by
  refine ⟨Fintype.card (Chunk F P I) + 1, fun fuel hfuel => ?_⟩
  have hrequested : Agrees (requested.foldlM program.makeResolvedEntryForFunction .new)
      (.ok (addAll [] (requested.flatMap program.resolvedForFunction))) :=
    agrees_foldlM_ok (fun f _ gsTable h => agrees_function h f) ready_new
  rw [visit]
  match requested.foldlM program.makeResolvedEntryForFunction (.new : Table F P I), hrequested with
  | .ok gsTable, ⟨hready, hl⟩ =>
    have hbrought : ∀ chunk, Brought program.brings (targets gsTable) chunk ↔ program.Reserved requested chunk := fun chunk => by
      have hmem : ∀ x, x ∈ targets gsTable ↔ x ∈ requested.flatMap program.resolvedForFunction := fun x => by
        rw [hl, mem_addAll]
        exact or_iff_right List.not_mem_nil
      exact ⟨.mono fun x hx => .of_mem ((hmem x).1 hx), .mono fun x hx => .of_mem ((hmem x).2 hx)⟩
    have hcard : Fintype.card (Chunk F P I) - (targets gsTable).length < fuel := by omega
    have heq := program.makeRequiredEntries_eq fuel hready
    obtain ⟨o, ho, hspec⟩ := saturate_spec program.brings hready.mirrors.nodup_targets hcard
    rw [show gsTable.children.map GSTableEntry.target = targets gsTable from rfl] at ho hspec
    rw [ho] at heq
    dsimp only
    match hr : program.makeRequiredEntries fuel gsTable, heq with
    | some r, hagrees =>
      refine ⟨r, rfl, ?_⟩
      match r, o, hagrees, hspec with
      | .ok gsTable', .ok l, ⟨hready', hl'⟩, ⟨_, hmem, hok⟩ =>
        have hreserved : ∀ chunk, (gsTable'.getEntryFor chunk).isSome ↔ chunk ∈ l := fun chunk => by
          rw [Option.isSome_iff_ne_none, ne_eq, hready'.mirrors.getEntryFor_eq_none, not_not, ← hl']
          rfl
        refine ⟨fun chunk => (hreserved chunk).trans ((hmem chunk).trans (hbrought chunk)), fun chunk hchunk => ?_⟩
        exact hok chunk ((hmem chunk).2 ((hbrought chunk).2 hchunk))
      | .error e, .error e', he, ⟨chunk, hreached, hfails⟩ =>
        exact ⟨chunk, (hbrought chunk).1 hreached, hfails.trans (congrArg Except.error he.symm)⟩

omit [DecidableEq P] [DecidableEq I] in
/-- The code of a chunk has no instruction with two links. -/
theorem brings_ok_iff {chunk : Chunk F P I} : (∃ new, program.brings chunk = .ok new) ↔
    ∀ immLink dispLink, some (.immAndDispLink immLink dispLink) ∉ (program.children chunk).flatten := by
  rw [brings]
  constructor
  · rintro ⟨new, hnew⟩ immLink dispLink hlink
    cases hnews : (program.children chunk).flatten.mapM program.bringsLink with
    | error e =>
      rw [hnews] at hnew
      cases hnew
    | ok news =>
      obtain ⟨new', hnew'⟩ := (of_mapM_eq_ok hnews).1 _ hlink
      cases hnew'
  · intro h
    have hlinks : ∀ link ∈ (program.children chunk).flatten, ∃ new, program.bringsLink link = .ok new := by
      intro link hlink
      match link with
      | none => exact ⟨[], rfl⟩
      | some (.dataOffsetLink sec address) =>
        rw [bringsLink, target]
        split <;> exact ⟨_, rfl⟩
      | some (.absoluteDataLink _ _) => exact ⟨_, rfl⟩
      | some (.immAndDispLink immLink dispLink) => exact absurd hlink (h immLink dispLink)
      | some (.otherLink _) => exact ⟨_, rfl⟩
    obtain ⟨news, hnews⟩ := exists_mapM hlinks
    exact ⟨news.flatten, by rw [hnews]; rfl⟩

omit [DecidableEq P] [DecidableEq I] in
theorem brings_iff {chunk x : Chunk F P I} : Brings program.brings chunk x ↔ (∃ new, program.brings chunk = .ok new) ∧
    ∃ link, some link ∈ (program.children chunk).flatten ∧ ∃ t, program.target link = .ok t ∧ x ∈ program.resolved t := by
  have hmem : ∀ news, (program.children chunk).flatten.mapM program.bringsLink = .ok news → (x ∈ news.flatten ↔
      ∃ link, some link ∈ (program.children chunk).flatten ∧ ∃ t, program.target link = .ok t ∧ x ∈ program.resolved t) := by
    intro news hnews
    rw [(of_mapM_eq_ok hnews).2]
    constructor
    · rintro ⟨link, hlink, new, hnew, hx⟩
      match link with
      | none =>
        cases hnew
        cases hx
      | some link =>
        rw [bringsLink] at hnew
        cases ht : program.target link with
        | error e =>
          rw [ht] at hnew
          cases hnew
        | ok t =>
          rw [ht] at hnew
          cases hnew
          exact ⟨link, hlink, t, ht, hx⟩
    · rintro ⟨link, hlink, t, ht, hx⟩
      exact ⟨some link, hlink, program.resolved t, by rw [bringsLink, ht]; rfl, hx⟩
  rw [Brings, brings]
  cases hnews : (program.children chunk).flatten.mapM program.bringsLink with
  | error e => exact ⟨fun ⟨_, h, _⟩ => (nomatch h), fun ⟨⟨_, h⟩, _⟩ => nomatch h⟩
  | ok news =>
    constructor
    · rintro ⟨new, hnew, hx⟩
      cases hnew
      exact ⟨⟨_, rfl⟩, (hmem news hnews).1 hx⟩
    · rintro ⟨-, h⟩
      exact ⟨news.flatten, rfl, (hmem news hnews).2 h⟩

/-! ## What the entries should be -/

variable (program)

/-- The chunks that a link references, itself or through the variable of a data link. -/
def references : Link (Chunk F P I) S → List (Chunk F P I)
  | .dataOffsetLink sec address | .absoluteDataLink sec address => ((program.find sec address).join.bind Dest.target).toList
  | .immAndDispLink immLink dispLink => references immLink ++ references dispLink
  | .otherLink target => target.toList

/-- The entries that a reference needs. -/
def required : Chunk F P I → List (Chunk F P I)
  | .function f => if program.excluded f then [] else [.function f]
  | .pltTrampoline plt => program.resolvedForPLT plt
  | .instruction _ => []

structure Closed (R : Chunk F P I → Prop) : Prop where
  links : ∀ chunk, R chunk → ∀ link, some link ∈ (program.children chunk).flatten → ∀ target ∈ program.references link,
    ∀ x ∈ program.required target, R x
  jumpTables : ∀ f, R (.function f) → ∀ dest ∈ program.jumpTableEntries f, ∀ x, dest.target = some x → R x

/-- The set of entries stays when functions are requested, and instructions stand, in another order. -/
def OrderFree (requested : List F) : Prop :=
  ∀ functionChildren pltChildren requested', (∀ f, (program.functionChildren f).flatten.Perm (functionChildren f).flatten) →
    (∀ p, (program.pltChildren p).flatten.Perm (pltChildren p).flatten) → requested.Perm requested' →
    ∀ fuel fuel' gsTable gsTable', program.visit requested fuel = some (.ok gsTable) →
      Program.visit { program with functionChildren, pltChildren } requested' fuel' = some (.ok gsTable') →
      ∀ chunk, (gsTable.getEntryFor chunk).isSome ↔ (gsTable'.getEntryFor chunk).isSome

/-- The function is handled as one that is requested or referenced by a link. -/
def Direct (requested : List F) (f : F) : Prop :=
  program.excluded f = false ∧ (f ∈ requested ∨ ∃ chunk, program.Reserved requested chunk ∧
    ∃ link, some link ∈ (program.children chunk).flatten ∧ program.target link = .ok (some (.function f)))

/-- What is not followed leads only to entries: instructions with two links, data links that are absolute or to a
variable with a link of another class, and jump tables of functions that are not handled themselves or with such links. -/
structure Followed (requested : List F) : Prop where
  oneLink : ∀ chunk, program.Reserved requested chunk → ∀ immLink dispLink,
    some (.immAndDispLink immLink dispLink) ∉ (program.children chunk).flatten
  dataLinks : ∀ chunk, program.Reserved requested chunk → ∀ link, some link ∈ (program.children chunk).flatten →
    program.target link = .ok none → ∀ target ∈ program.references link, ∀ x ∈ program.required target,
      program.Reserved requested x
  jumpTables : ∀ f, program.Reserved requested (.function f) → ∀ dest ∈ program.jumpTableEntries f,
    (¬ program.Direct requested f ∨ normalTarget dest = none) → ∀ x, dest.target = some x → program.Reserved requested x

variable {program}

variable {requested : List F}

omit [DecidableEq P] [DecidableEq I] in
theorem Reserved.brings {chunk x : Chunk F P I} (h : program.Reserved requested chunk) (hx : Brings program.brings chunk x) :
    program.Reserved requested x := Brought.step h hx

omit [DecidableEq P] [DecidableEq I] in
/-- What `resolved` gives for the target of a link has an entry. -/
theorem Reserved.of_target (hall : ∀ chunk, program.Reserved requested chunk → ∃ new, program.brings chunk = .ok new)
    {chunk : Chunk F P I} (h : program.Reserved requested chunk) {link : Link (Chunk F P I) S}
    (hlink : some link ∈ (program.children chunk).flatten) {t : Option (Chunk F P I)} (ht : program.target link = .ok t)
    {x : Chunk F P I} (hx : x ∈ program.resolved t) : program.Reserved requested x :=
  h.brings (brings_iff.2 ⟨hall chunk h, link, hlink, t, ht, hx⟩)

omit [DecidableEq P] [DecidableEq I] in
theorem mem_resolved_of_mem_required {target x : Chunk F P I} (h : x ∈ program.required target) :
    x ∈ program.resolved (some target) := by
  match target with
  | .function f =>
    rw [required] at h
    split_ifs at h with hexcluded
    · cases h
    · rw [List.mem_singleton] at h
      rw [resolved, resolvedForFunction, if_neg hexcluded, h]
      exact List.mem_cons_self
  | .pltTrampoline plt => exact h
  | .instruction _ => cases h

omit [DecidableEq F] [DecidableEq P] [DecidableEq I] in
/-- A link that is not a data link is followed to the chunk that it references. -/
theorem references_of_target {link : Link (Chunk F P I) S} {t : Chunk F P I} (h : program.target link = .ok (some t)) :
    program.references link = [t] := by
  match link with
  | .dataOffsetLink sec address =>
    rw [target] at h
    split at h
    · rename_i t' hfind
      cases h
      rw [references, hfind]
      rfl
    · cases h
  | .absoluteDataLink _ _ => cases h
  | .immAndDispLink _ _ => cases h
  | .otherLink t' =>
    cases h
    rfl

omit [DecidableEq P] [DecidableEq I] in
/-- The jump tables of a function that is handled itself. -/
theorem Direct.jumpTables (hall : ∀ chunk, program.Reserved requested chunk → ∃ new, program.brings chunk = .ok new) {f : F}
    (h : program.Direct requested f) {dest : Dest (Chunk F P I)} (hdest : dest ∈ program.jumpTableEntries f) {x : Chunk F P I}
    (hx : normalTarget dest = some x) : program.Reserved requested x := by
  obtain ⟨hexcluded, hdirect⟩ := h
  have hresolved : x ∈ program.resolvedForFunction f := by
    rw [resolvedForFunction, hexcluded]
    exact List.mem_cons_of_mem _ (List.mem_filterMap.2 ⟨dest, hdest, hx⟩)
  rcases hdirect with hrequested | ⟨chunk, hchunk, link, hlink, ht⟩
  · exact .of_mem (List.mem_flatMap.2 ⟨f, hrequested, hresolved⟩)
  · exact hchunk.of_target hall hlink ht hresolved

omit [DecidableEq P] [DecidableEq I] in
theorem closed_of_followed (h : program.Followed requested) : program.Closed (program.Reserved requested) := by
  have hall : ∀ chunk, program.Reserved requested chunk → ∃ new, program.brings chunk = .ok new := fun chunk hchunk =>
    brings_ok_iff.2 (h.oneLink chunk hchunk)
  refine ⟨fun chunk hchunk link hlink target htarget x hx => ?_, fun f hf dest hdest x hx => ?_⟩
  · match ht : program.target link with
    | .error e =>
      match link with
      | .immAndDispLink immLink dispLink => exact absurd hlink (h.oneLink chunk hchunk immLink dispLink)
      | .dataOffsetLink sec address =>
        rw [Program.target] at ht
        split at ht <;> cases ht
    | .ok none => exact h.dataLinks chunk hchunk link hlink ht target htarget x hx
    | .ok (some t) =>
      rw [references_of_target ht, List.mem_singleton] at htarget
      exact hchunk.of_target hall hlink ht (mem_resolved_of_mem_required (htarget ▸ hx))
  · by_cases hdirect : program.Direct requested f
    · cases hnormal : normalTarget dest with
      | none => exact h.jumpTables f hf dest hdest (.inr hnormal) x hx
      | some t =>
        have ht : t = x := by
          match dest with
          | .normalLink t' =>
            cases hnormal
            exact Option.some.inj hx
        exact hdirect.jumpTables hall hdest (ht ▸ hnormal)
    · exact h.jumpTables f hf dest hdest (.inl hdirect) x hx

omit [DecidableEq P] [DecidableEq I] in
theorem reserved_reorder {functionChildren : F → List (List (Option (Link (Chunk F P I) S)))}
    {pltChildren : P → List (List (Option (Link (Chunk F P I) S)))} {requested' : List F}
    (hf : ∀ f, (program.functionChildren f).flatten.Perm (functionChildren f).flatten)
    (hp : ∀ p, (program.pltChildren p).flatten.Perm (pltChildren p).flatten) (hrequested : requested.Perm requested')
    (chunk : Chunk F P I) : program.Reserved requested chunk ↔
      Reserved { program with functionChildren, pltChildren } requested' chunk := by
  have hchildren : ∀ chunk link, link ∈ (program.children chunk).flatten ↔
      link ∈ (Program.children { program with functionChildren, pltChildren } chunk).flatten := by
    intro chunk link
    match chunk with
    | .function f => exact (hf f).mem_iff
    | .pltTrampoline p => exact (hp p).mem_iff
    | .instruction _ => exact Iff.rfl
  have hbrings : ∀ chunk x, Brings program.brings chunk x ↔
      Brings (Program.brings { program with functionChildren, pltChildren }) chunk x := by
    intro chunk x
    rw [brings_iff, brings_iff, brings_ok_iff, brings_ok_iff]
    simp only [hchildren]
    exact Iff.rfl
  have hstart : ∀ x, x ∈ requested.flatMap program.resolvedForFunction ↔
      x ∈ requested'.flatMap (resolvedForFunction { program with functionChildren, pltChildren }) := fun x =>
    (hrequested.flatMap_right _).mem_iff
  constructor
  · rintro ⟨x, hx, hreach⟩
    exact ⟨x, (hstart x).1 hx, ReflTransGen.mono (fun a b => (hbrings a b).1) _ _ hreach⟩
  · rintro ⟨x, hx, hreach⟩
    exact ⟨x, (hstart x).2 hx, ReflTransGen.mono (fun a b => (hbrings a b).2) _ _ hreach⟩

theorem makeRequiredEntries_mono {fuel fuel' : Nat} (hle : fuel ≤ fuel') {gsTable : Table F P I}
    {r : Except String (Table F P I)} (h : program.makeRequiredEntries fuel gsTable = some r) :
    program.makeRequiredEntries fuel' gsTable = some r := by
  induction fuel generalizing fuel' gsTable with
  | zero => cases h
  | succ fuel ih =>
    obtain ⟨fuel', rfl⟩ := Nat.exists_eq_add_one_of_ne_zero (show fuel' ≠ 0 by omega)
    rw [makeRequiredEntries] at h ⊢
    cases hround : (List.range gsTable.children.length).foldlM program.makeRequiredEntriesAt gsTable with
    | error e =>
      rw [hround] at h
      exact h
    | ok gsTable' =>
      rw [hround] at h
      by_cases hsame : gsTable'.children.length = gsTable.children.length
      · simpa only [hsame, if_true] using h
      · simp only [hsame, if_false] at h ⊢
        exact ih (by omega) h

/-- The entries that a finished pass leaves. -/
theorem isSome_of_visit {fuel : Nat} {gsTable : Table F P I} (h : program.visit requested fuel = some (.ok gsTable))
    (chunk : Chunk F P I) : (gsTable.getEntryFor chunk).isSome ↔ program.Reserved requested chunk := by
  obtain ⟨depth, hdepth⟩ := program.visit_finds requested
  obtain ⟨outcome, hvisit, hspec⟩ := hdepth (max depth fuel) (le_max_left _ _)
  have hsame : program.visit requested (max depth fuel) = some (.ok gsTable) := by
    rw [visit] at h ⊢
    cases hstart : requested.foldlM program.makeResolvedEntryForFunction (.new : Table F P I) with
    | error e =>
      rw [hstart] at h
      cases h
    | ok gsTable₀ =>
      rw [hstart] at h
      exact makeRequiredEntries_mono (le_max_right _ _) h
  cases hvisit.symm.trans hsame
  exact hspec.1 chunk

theorem orderFree (program : Program F P I S M) (requested : List F) : program.OrderFree requested :=
  fun _ _ _ hf hp hrequested _ _ _ _ h h' chunk =>
    (isSome_of_visit h chunk).trans ((reserved_reorder hf hp hrequested chunk).trans (isSome_of_visit h' chunk).symm)

/-- The pass ends on every program, with the same entries in every order. The entries are closed exactly when what is
not followed leads only to entries. -/
theorem closed_iff (program : Program F P I S M) (requested : List F) :
    (∃ depth, ∀ fuel ≥ depth, ∃ outcome, program.visit requested fuel = some outcome) ∧ program.OrderFree requested ∧
      ((∃ depth, ∀ fuel ≥ depth, ∃ gsTable, program.visit requested fuel = some (.ok gsTable) ∧
        program.Closed fun chunk => (gsTable.getEntryFor chunk).isSome) ↔ program.Followed requested) := by
  obtain ⟨depth, hdepth⟩ := program.visit_finds requested
  refine ⟨⟨depth, fun fuel hfuel => ?_⟩, program.orderFree requested, fun h => ?_, fun h => ⟨depth, fun fuel hfuel => ?_⟩⟩
  · obtain ⟨outcome, hvisit, -⟩ := hdepth fuel hfuel
    exact ⟨outcome, hvisit⟩
  · obtain ⟨depth', hdepth'⟩ := h
    obtain ⟨gsTable, hvisit', hclosed⟩ := hdepth' (max depth depth') (le_max_right _ _)
    obtain ⟨outcome, hvisit, hspec⟩ := hdepth (max depth depth') (le_max_left _ _)
    cases hvisit.symm.trans hvisit'
    obtain ⟨hreserved, hall⟩ := hspec
    simp only [hreserved] at hclosed
    exact ⟨fun chunk hchunk => brings_ok_iff.1 (hall chunk hchunk),
      fun chunk hchunk link hlink _ => hclosed.links chunk hchunk link hlink,
      fun f hf dest hdest _ => hclosed.jumpTables f hf dest hdest⟩
  · obtain ⟨outcome, hvisit, hspec⟩ := hdepth fuel hfuel
    match outcome, hspec with
    | .error e, ⟨chunk, hchunk, herror⟩ =>
      obtain ⟨new, hnew⟩ := brings_ok_iff.2 (h.oneLink chunk hchunk)
      cases hnew.symm.trans herror
    | .ok gsTable, ⟨hreserved, _⟩ =>
      refine ⟨gsTable, hvisit, ?_⟩
      simp only [hreserved]
      exact closed_of_followed h

/-! ## A jump table behind a trampoline -/

/-- The function 0 calls a trampoline, whose target is the function 1 with a jump table. -/
def callsThroughTrampoline : Program (Fin 2) Unit Unit Empty Unit where
  functionChildren
    | 0 => [[some (.otherLink (some (.pltTrampoline ())))]]
    | 1 => [[none]]
  pltChildren _ := [[none]]
  hasName _ _ := false
  module _ := ()
  jumpTableList _ := [⟨1, [some (.normalLink (.instruction ()))]⟩]
  getTarget _ := some (.function 1)
  find sec _ := sec.elim
  fits := by decide

/-- The targets of the jump table have no entry. -/
theorem not_closed_callsThroughTrampoline : ¬ ∃ depth, ∀ fuel ≥ depth, ∃ gsTable,
    callsThroughTrampoline.visit [0] fuel = some (.ok gsTable) ∧
      callsThroughTrampoline.Closed fun chunk => (gsTable.getEntryFor chunk).isSome := by
  rintro ⟨depth, hdepth⟩
  obtain ⟨gsTable, hvisit, hclosed⟩ := hdepth depth le_rfl
  simp only [isSome_of_visit hvisit] at hclosed
  have hstart : callsThroughTrampoline.Reserved [0] (.function 0) := .of_mem List.mem_cons_self
  have htarget : callsThroughTrampoline.Reserved [0] (.function 1) :=
    hstart.brings ⟨[.pltTrampoline (), .function 1], rfl, List.mem_cons_of_mem _ List.mem_cons_self⟩
  have hinstruction : callsThroughTrampoline.Reserved [0] (.instruction ()) :=
    hclosed.jumpTables 1 htarget _ List.mem_cons_self _ rfl
  have hfirst : callsThroughTrampoline.brings (.function 0) = .ok [.pltTrampoline (), .function 1] := rfl
  have hothers : callsThroughTrampoline.brings (.pltTrampoline ()) = .ok [] ∧ callsThroughTrampoline.brings (.function 1) = .ok [] :=
    ⟨rfl, rfl⟩
  have hthree : ∀ x ∈ [.function 0, .pltTrampoline (), .function 1], ∀ y, Brings callsThroughTrampoline.brings x y →
      y ∈ ([.function 0, .pltTrampoline (), .function 1] : List (Chunk (Fin 2) Unit Unit)) := by
    rintro x hx y ⟨new, hnew, hy⟩
    simp only [List.mem_cons, List.not_mem_nil, or_false] at hx
    rcases hx with rfl | rfl | rfl
    · cases hfirst.symm.trans hnew
      exact List.mem_cons_of_mem _ hy
    · cases hothers.1.symm.trans hnew
      cases hy
    · cases hothers.2.symm.trans hnew
      cases hy
  have hmem := Brought.mem hthree (.mono (fun x hx => .of_mem ?_) hinstruction)
  · simp at hmem
  · rw [show [0].flatMap callsThroughTrampoline.resolvedForFunction = [.function 0] from rfl] at hx
    exact List.mem_cons.2 (.inl (List.mem_singleton.1 hx))

end Program

end Egalito.Pass.JitGSSetup
