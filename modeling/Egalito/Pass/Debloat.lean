import Egalito.Analysis.CallGraph
import Egalito.Chunk.SpatialSearch
import Egalito.Lib.Buffer
/-!
# `DebloatPass`

`pass/debloat.cpp`. The constructor marks what its roots call; `visit` removes
the other functions of a module from the list that it is walking over.
-/

open Relation Egalito.Lib

namespace Egalito.Analysis

variable {F : Type} [DecidableEq F]

/-! ## The roots -/

section Roots

variable [ChunkList.SizedChild F]

/-- `CIter::spatial(functionList)->findContaining(address)` -/
def CallModule.findFunction (module : CallModule F) (address : BitVec 64) : Option F :=
  ChunkList.SpaceMap.findContaining (.ofList module.functions) address

def DT_INIT : Nat := 12
def DT_FINI : Nat := 13
def DT_INIT_ARRAY : Nat := 25
def DT_FINI_ARRAY : Nat := 26
def DT_INIT_ARRAYSZ : Nat := 27
def DT_FINI_ARRAYSZ : Nat := 28

/-- The function that a slot of the array is relocated to; without it an assertion fails. -/
def CallModule.pointerTarget (module : CallModule F) (relocs : BitVec 64 → Option Reloc) (address : BitVec 64) : Option F := do
  let r ← relocs address
  if r.addend ≠ 0 then module.findFunction r.addend
  else module.findFunction (← r.symbol)

def CallModule.useFromPointerArray (module : CallModule F) (start size : BitVec 64) : Option (List F) :=
  if start = 0 ∨ size = 0 then some []
  else match module.relocList with
    | none => some []
    | some relocs => (List.range ((size.toNat + 7) / 8)).mapM fun i =>
      module.pointerTarget relocs (start + BitVec.ofNat 64 (8 * i))

/-- The last value in the dynamic section for a tag, zero at first. -/
def dynValue (tag : Nat) (dyns : List Dyn) : BitVec 64 :=
  dyns.foldl (fun value dyn => if dyn.tag = tag then dyn.val else value) 0

def CallModule.useFromDynamicInitFini (module : CallModule F) : Option (List F) :=
  match module.dynamic with
  | none => some []
  | some dyns => do
    let dyns := dyns.takeWhile fun dyn => dyn.tag ≠ 0
    let functions ← (dyns.filter fun dyn => dyn.tag = DT_INIT ∨ dyn.tag = DT_FINI).mapM fun dyn => module.findFunction dyn.val
    let initArray ← module.useFromPointerArray (dynValue DT_INIT_ARRAY dyns) (dynValue DT_INIT_ARRAYSZ dyns)
    let finiArray ← module.useFromPointerArray (dynValue DT_FINI_ARRAY dyns) (dynValue DT_FINI_ARRAYSZ dyns)
    return functions ++ (initArray ++ finiArray)

/-- `useFromCodeLinks` at an instruction; the function around a target that is an instruction is
asserted to be one. -/
def useFromLink (instr : CallInstr F) : Option (List F) :=
  match instr.link with
  | none | some (.normal .other) => some []
  | some (.normal (.function f)) => some [f]
  | some (.normal (.instruction parent)) => parent.map fun f => [f]
  | some (.plt resolved) => some resolved.toList

def specialNames : List String := ["_start2", "ifunc_resolver", "egalito_runtime_init"]

/-- With the feature `EGALITO_USE_GS`. -/
def specialNamesGS : List String :=
  ["egalito_pthread_create", "egalito_sigaction", "egalito_signal_handler", "egalito_jit_gs_setup_thread",
    "egalito_hook_jit_fixup", "egalito_hook_jit_fixup_return", "egalito_hook_jit_reset_on_syscall",
    "egalito_hook_after_clone_syscall"]

/-- What `markTreeAsUsed` is called on, in that order; the indirect callees are a set of pointers
and come in any order. -/
def CallProgram.roots (program : CallProgram F) (useGS : Bool) : Option (List F) := do
  let dynamic ← program.modules.mapM (·.useFromDynamicInitFini)
  let entry ← program.entryPoint
  let indirect ← program.modules.mapM (·.indirectCallees)
  let links ← (program.functions.flatMap fun f => (program.blocks f).flatten).mapM useFromLink
  let names := specialNames ++ if useGS then specialNamesGS else []
  return dynamic.flatten ++ entry :: (indirect.flatten ++ (links.flatten ++
    program.functions.filter fun f => names.any (program.hasName f)))

end Roots

/-! ## The pass -/

variable (program : CallProgram F) (fuel : Nat)

def markTreeAsUsed (usedList : Finset F) (root : F) : Option (Finset F) :=
  if root ∈ usedList then some usedList
  else do
    let order ← genOrder (callGraph program) 1 .preorder false fuel ((CallGraph.make program).getIDFor root)
    order.foldlM (fun usedList n => (CallGraph.make program).nodeList[n]?.map (insert · usedList)) usedList

/-- The constructor. -/
def debloatPass [ChunkList.SizedChild F] (useGS : Bool) : Option (Finset F) := do
  (← program.roots useGS).foldlM (markTreeAsUsed program fuel) ∅

/-- `visit`: the function list of the module when it returns. The iterators of the loop are
pointers into the vector of the list. -/
def debloatVisit (usedList : Finset F) (module : CallModule F) : List F :=
  (Buffer.eraseDead (fun f => decide (f ∉ usedList)) module.functions).live

omit [DecidableEq F] in
/-- In the memory of the list, a removal does what it does to the list. -/
theorem live_remove [ChunkList.ChildType F] [DecidableEq F] (l : ChunkList.ChunkListImpl F) (rest : List F) (f : F) :
    (Buffer.remove ⟨l.iterable, rest⟩ f).live = (l.remove f).iterable := by
  rw [Buffer.remove, ChunkList.ChunkListImpl.remove]
  split
  · rfl
  · rename_i hf
    exact (List.erase_of_not_mem hf).symm

variable {program fuel} {roots : List F}

/-! ## What is used -/

/-- The functions that the roots reach by direct calls. -/
def CallProgram.Reached (program : CallProgram F) (roots : List F) (f : F) : Prop := ∃ r ∈ roots, program.Calls r f

omit [DecidableEq F] in
theorem isLeast_reached (program : CallProgram F) (roots : List F) :
    IsLeast {s : Set F | (∀ r ∈ roots, r ∈ s) ∧ ∀ f ∈ s, ∀ g ∈ program.callees f, g ∈ s} {f | program.Reached roots f} := by
  refine ⟨⟨fun r hr => ⟨r, hr, .refl⟩, fun f ⟨r, hr, hf⟩ g hg => ⟨r, hr, hf.tail hg⟩⟩, ?_⟩
  rintro s ⟨hroots, hclosed⟩ f ⟨r, hr, hf⟩
  induction hf with
  | refl => exact hroots r hr
  | tail _ hc ih => exact hclosed _ ih _ hc

/-- The loop over the nodes of an order puts in their functions. -/
theorem insertNodes_spec {nodeList : List F} {order : List Nat} (horder : ∀ n ∈ order, n < nodeList.length)
    (usedList : Finset F) : ∃ usedList',
      order.foldlM (fun usedList n => nodeList[n]?.map (insert · usedList)) usedList = some usedList' ∧
        ∀ f, f ∈ usedList' ↔ f ∈ usedList ∨ ∃ n ∈ order, nodeList[n]? = some f := by
  induction order generalizing usedList with
  | nil => exact ⟨usedList, rfl, by simp⟩
  | cons n order ih =>
    rw [List.forall_mem_cons] at horder
    have hn : nodeList[n]? = some nodeList[n] := List.getElem?_eq_getElem horder.1
    obtain ⟨usedList', hrun, hmem⟩ := ih horder.2 (insert nodeList[n] usedList)
    refine ⟨usedList', by rw [List.foldlM_cons, hn]; exact hrun, fun f => ?_⟩
    rw [hmem, Finset.mem_insert, List.exists_mem_cons_iff, hn, Option.some.injEq, eq_comm (a := f)]
    tauto

theorem mem_of_insertNodes {nodeList : List F} {order : List Nat} {usedList usedList' : Finset F}
    (h : order.foldlM (fun usedList n => nodeList[n]?.map (insert · usedList)) usedList = some usedList')
    (hused : ∀ f ∈ usedList, f ∈ nodeList) : ∀ f ∈ usedList', f ∈ nodeList := by
  refine foldlM_invariant (P := fun _ _ => True) (fun usedList : Finset F => ∀ f ∈ usedList, f ∈ nodeList)
    (fun u n u' hu _ hstep => ?_) hused (along_of_forall (fun _ _ => trivial) _ _) h
  obtain ⟨g, hg, rfl⟩ := Option.map_eq_some_iff.1 hstep
  intro f hf
  rcases Finset.mem_insert.1 hf with rfl | hf
  · exact List.mem_of_getElem? hg
  · exact hu f hf

/-- A tree of calls is marked; where the root is marked already, the tree is. -/
theorem markTreeAsUsed_spec {usedList : Finset F} {root : F} (hfuel : program.functions.length ≤ fuel)
    (hclosed : ∀ f ∈ usedList, ∀ g ∈ program.callees f, g ∈ usedList)
    (hlisted : ∀ g, program.Calls root g → g ∈ program.functions) : ∃ usedList',
      markTreeAsUsed program fuel usedList root = some usedList' ∧
        ∀ f, f ∈ usedList' ↔ f ∈ usedList ∨ program.Calls root f := by
  rw [markTreeAsUsed]
  split
  · rename_i hroot
    refine ⟨usedList, rfl, fun f => (or_iff_left_of_imp fun hf => ?_).symm⟩
    induction hf with
    | refl => exact hroot
    | tail _ hc ih => exact hclosed _ ih _ hc
  · have hne : program.functions ≠ [] := List.ne_nil_of_mem (hlisted root .refl)
    obtain ⟨order, horder, -, hmem⟩ : ∃ order, genOrder (callGraph program) 1 .preorder false fuel
        ((CallGraph.make program).getIDFor root) = some order ∧ order.Nodup ∧
          ∀ v, v ∈ order ↔ ReflTransGen ((callGraph program).Edge 1) ((CallGraph.make program).getIDFor root) v :=
      genOrder_preorder (callGraph program) (CallGraph.getIDFor_lt hne root) hfuel
    simp only [reach_iff_calls hlisted] at hmem
    have hlt : ∀ n ∈ order, n < (CallGraph.make program).nodeList.length := fun n hn => by
      obtain ⟨g, -, rfl⟩ := (hmem n).1 hn
      rw [CallGraph.nodeList_make]
      exact CallGraph.getIDFor_lt hne g
    obtain ⟨usedList', hrun, hused⟩ := insertNodes_spec hlt usedList
    refine ⟨usedList', by rw [horder]; exact hrun, fun f => ?_⟩
    rw [hused]
    refine or_congr_right ⟨?_, fun hf => ⟨_, (hmem _).2 ⟨f, hf, rfl⟩, CallGraph.nodeList_getIDFor (hlisted f hf)⟩⟩
    rintro ⟨n, hn, hnode⟩
    obtain ⟨g, hg, rfl⟩ := (hmem n).1 hn
    rw [CallGraph.nodeList_getIDFor (hlisted g hg)] at hnode
    exact Option.some.inj hnode ▸ hg

/-- All that is reached is marked and nothing else. -/
theorem markRoots_spec (hfuel : program.functions.length ≤ fuel)
    (hlisted : ∀ f, program.Reached roots f → f ∈ program.functions) : ∃ usedList,
      roots.foldlM (markTreeAsUsed program fuel) ∅ = some usedList ∧ ∀ f, f ∈ usedList ↔ program.Reached roots f := by
  refine foldlM_total_done (fun done usedList => ∀ f, f ∈ usedList ↔ program.Reached done f) ?_ (by simp [CallProgram.Reached])
  rintro done root rest usedList rfl hused
  have hclosed : ∀ f ∈ usedList, ∀ g ∈ program.callees f, g ∈ usedList := fun f hf g hg => by
    obtain ⟨r, hr, hf⟩ := (hused f).1 hf
    exact (hused g).2 ⟨r, hr, hf.tail hg⟩
  obtain ⟨usedList', hrun, hmem⟩ := markTreeAsUsed_spec hfuel hclosed fun g hg => hlisted g ⟨root, by simp, hg⟩
  refine ⟨usedList', hrun, fun f => ?_⟩
  rw [hmem, hused, CallProgram.Reached, CallProgram.Reached]
  simp only [List.mem_append, List.mem_singleton, or_and_right, exists_or, exists_eq_left]

/-- Only functions of the lists are marked. -/
theorem listed_of_marked {usedList : Finset F} (h : roots.foldlM (markTreeAsUsed program fuel) ∅ = some usedList) :
    ∀ f ∈ usedList, f ∈ program.functions := by
  refine foldlM_invariant (P := fun _ _ => True) (fun usedList : Finset F => ∀ f ∈ usedList, f ∈ program.functions)
    (fun u root u' hu _ hstep => ?_) (by simp)
    (along_of_forall (fun _ _ => trivial) _ _) h
  rw [markTreeAsUsed] at hstep
  split at hstep
  · exact Option.some.inj hstep ▸ hu
  · obtain ⟨order, -, hrun⟩ := Option.bind_eq_some_iff.1 hstep
    rw [← CallGraph.nodeList_make] at hu ⊢
    exact mem_of_insertNodes hrun hu

/-! ## What is left -/

/-- The used functions are the smallest set with the roots that is closed under calls, and the
module is left with its used functions. -/
def Debloats (program : CallProgram F) (fuel : Nat) (roots : List F) (module : CallModule F) : Prop :=
  ∃ usedList, roots.foldlM (markTreeAsUsed program fuel) ∅ = some usedList ∧
    IsLeast {s : Set F | (∀ r ∈ roots, r ∈ s) ∧ ∀ f ∈ s, ∀ g ∈ program.callees f, g ∈ s} {f | f ∈ usedList} ∧
    debloatVisit usedList module = module.functions.filter (· ∈ usedList)

theorem debloatVisit_iff (usedList : Finset F) (module : CallModule F) :
    debloatVisit usedList module = module.functions.filter (· ∈ usedList) ↔
      module.functions.dropLast.IsChain fun f g => f ∈ usedList ∨ g ∈ usedList := by
  have hiff : debloatVisit usedList module = module.functions.filter (fun f => !decide (f ∉ usedList)) ↔ _ :=
    Buffer.eraseDead_iff module.nodup
  simpa using hiff

theorem debloats_iff (program : CallProgram F) (roots : List F) (module : CallModule F) {fuel : Nat}
    (hfuel : program.functions.length ≤ fuel) : Debloats program fuel roots module ↔
      (∀ f, program.Reached roots f → f ∈ program.functions) ∧
        module.functions.dropLast.IsChain fun f g => program.Reached roots f ∨ program.Reached roots g := by
  constructor
  · rintro ⟨usedList, hrun, hleast, hvisit⟩
    have hsame := hleast.unique (isLeast_reached program roots)
    have hused : ∀ f, f ∈ usedList ↔ program.Reached roots f := fun f => Set.ext_iff.1 hsame f
    refine ⟨fun f hf => listed_of_marked hrun f ((hused f).2 hf), ?_⟩
    simpa only [hused] using (debloatVisit_iff usedList module).1 hvisit
  · rintro ⟨hlisted, hchain⟩
    obtain ⟨usedList, hrun, hused⟩ := markRoots_spec hfuel hlisted
    refine ⟨usedList, hrun, ?_, (debloatVisit_iff usedList module).2 (by simpa only [hused] using hchain)⟩
    simpa only [hused] using isLeast_reached program roots

variable [ChunkList.SizedChild F]

/-- The pass does so exactly when the roots reach functions of the lists only and, in the module's
list without its last function, no two that they do not reach are neighbours. -/
theorem debloatPass_exact_iff (program : CallProgram F) (useGS : Bool) (hroots : program.roots useGS = some roots)
    (module : CallModule F) {fuel : Nat} (hfuel : program.functions.length ≤ fuel) :
    (∃ usedList, debloatPass program fuel useGS = some usedList ∧
      IsLeast {s : Set F | (∀ r ∈ roots, r ∈ s) ∧ ∀ f ∈ s, ∀ g ∈ program.callees f, g ∈ s} {f | f ∈ usedList} ∧
      debloatVisit usedList module = module.functions.filter (· ∈ usedList)) ↔
    (∀ f, program.Reached roots f → f ∈ program.functions) ∧
      module.functions.dropLast.IsChain fun f g => program.Reached roots f ∨ program.Reached roots g := by
  have hrun : debloatPass program fuel useGS = roots.foldlM (markTreeAsUsed program fuel) ∅ := by
    rw [debloatPass, hroots]
    rfl
  rw [hrun]
  exact debloats_iff program roots module hfuel

/-! ## Three functions -/

def mainFunction : ChunkList.Extent := ⟨0x1000, 0x10⟩
def helper : ChunkList.Extent := ⟨0x1010, 0x10⟩
def spare : ChunkList.Extent := ⟨0x1020, 0x10⟩

/-- A module that calls nothing. -/
def moduleOf (functions : List ChunkList.Extent) (h : functions.Nodup) : CallModule ChunkList.Extent where
  functions := functions
  nodup := h
  dataSections := []
  dynamic := none
  relocList := none

def programOf (module : CallModule ChunkList.Extent) : CallProgram ChunkList.Extent where
  modules := [module]
  blocks _ := []
  hasName _ _ := false
  entryPoint := some mainFunction

theorem reached_programOf {module : CallModule ChunkList.Extent} {f : ChunkList.Extent} :
    (programOf module).Reached [mainFunction] f ↔ f = mainFunction := by
  constructor
  · rintro ⟨r, hr, hf⟩
    rw [List.mem_singleton] at hr
    induction hf with
    | refl => exact hr
    | tail _ hc => simp [programOf, CallProgram.callees] at hc
  · rintro rfl
    exact ⟨_, List.mem_singleton_self _, .refl⟩

def apart : CallModule ChunkList.Extent := moduleOf [helper, mainFunction, spare] (by decide)

def together : CallModule ChunkList.Extent := moduleOf [helper, spare, mainFunction] (by decide)

/-- Two functions that are not called, on both sides of the one that is. -/
theorem debloatPass_exact_apart : ∃ usedList, debloatPass (programOf apart) 3 false = some usedList ∧
    IsLeast {s : Set ChunkList.Extent | (∀ r ∈ [mainFunction], r ∈ s) ∧
      ∀ f ∈ s, ∀ g ∈ (programOf apart).callees f, g ∈ s} {f | f ∈ usedList} ∧
    debloatVisit usedList apart = apart.functions.filter (· ∈ usedList) := by
  have hroots : (programOf apart).roots false = some [mainFunction] := rfl
  refine (debloatPass_exact_iff (programOf apart) false hroots apart (by decide)).2 ⟨fun f hf => ?_, ?_⟩
  · rw [reached_programOf.1 hf]
    decide
  · simp only [reached_programOf]
    decide

/-- Of two such functions beside each other the second stays. -/
theorem spare_stays : ∃ usedList, debloatPass (programOf together) 3 false = some usedList ∧
    (programOf together).roots false = some [mainFunction] ∧ usedList = {mainFunction} ∧
    debloatVisit usedList together = [spare, mainFunction] ∧
    debloatVisit usedList together ≠ together.functions.filter (· ∈ usedList) :=
  ⟨{mainFunction}, by decide, rfl, rfl, by decide, by decide⟩

end Egalito.Analysis
