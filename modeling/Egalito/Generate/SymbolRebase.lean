import Egalito.GnuHash.SymbolTable
import Egalito.Lib.Run
import Mathlib.Data.BitVec
import Mathlib.Tactic
/-!
# Symbols at rebased addresses

`makeSymbolsAndRelocs` of `generate/modulegen.cpp` and `generate/objgen.cpp`. While
the symbols of a function are made, its position is moved to the address that the
symbols get, and moved back afterwards. Both are called once for each text section,
over all functions of the module. A null pointer that is followed is `none`.
-/

open Egalito.Lib
open Egalito.GnuHash (CString Symbol SymbolTable)

namespace Egalito.Generate.SymbolRebase

/-! ## Functions and text sections -/

structure Function where
  func : GnuHash.Function
  symbol : Option Symbol
  /-- The aliases of the symbol. -/
  aliases : List Symbol

def Function.getAddress (f : Function) : GnuHash.Address := f.func.address

/-- `getPosition()->set(address)`. -/
def Function.setPosition (f : Function) (address : GnuHash.Address) : Function := { f with func := { f.func with address } }

structure Region where
  start : GnuHash.Address
  size : BitVec 64

/-- Not in this text section. -/
def Function.outside (f : Function) (region : Region) : Bool :=
  f.getAddress < region.start || f.getAddress + f.func.size ≥ region.start + region.size

/-- The module's functions and the symbol table. -/
abbrev State := List Function × SymbolTable

/-- The loop over the functions. -/
def forFunctions (visit : Function → SymbolTable → Option (Function × SymbolTable)) :
    List Function → SymbolTable → Option State
  | [], t => some ([], t)
  | f :: fs, t => do
    let (f, t) ← visit f t
    let (fs, t) ← forFunctions visit fs t
    some (f :: fs, t)

/-! ## `ModuleGen` -/

namespace ModuleGen

structure Config where
  isKernel : Bool
  /-- `getCodeBacking()->getBase()`. -/
  base : GnuHash.Address

def blacklistedSymbol (_ : CString) : Bool := false

def makeSymbolInText (t : SymbolTable) (f : Function) : Option SymbolTable := do
  let t ← t.addSymbol (some f.func) f.symbol
  match f.symbol with
  | none => some t
  | some symbol => f.aliases.foldlM (fun t other =>
      if other.name = f.func.name then some t
      else if other.type ≠ symbol.type then some t
      else t.addSymbol (some f.func) (some other)) t

variable (kernelCodeBase : GnuHash.Address) (config : Config)

/-- One round of the loop. `kernelCodeBase` is `LINUX_KERNEL_CODE_BASE`. -/
def visit (region : Region) (f : Function) (t : SymbolTable) : Option (Function × SymbolTable) :=
  if blacklistedSymbol f.func.name then some (f, t)
  else if f.outside region then some (f, t)
  else do
    -- fix addresses for kernel generation
    let f := if config.isKernel then f.setPosition (f.getAddress - config.base + kernelCodeBase) else f
    let t ← makeSymbolInText t f
    -- undo address fix
    let f := if config.isKernel then f.setPosition (config.base + f.getAddress) else f
    some (f, t)

def makeSymbolsAndRelocs (region : Region) (s : State) : Option State :=
  forFunctions (visit kernelCodeBase config region) s.1 s.2

end ModuleGen

/-! ## `ObjGen` -/

namespace ObjGen

/-- The bytes of a literal. -/
def literal (s : String) : List UInt8 := s.toList.map fun c => UInt8.ofNat c.toNat

def blacklistedSymbol (name : CString) : Bool :=
  name.bytes ∈ ["_init", "_fini", "register_tm_clones", "deregister_tm_clones", "frame_dummy",
    "__do_global_dtors_aux", "__libc_csu_init", "__libc_csu_fini", "_start"].map literal

def makeSymbolInText (t : SymbolTable) (f : Function) : Option SymbolTable := do
  let t ← t.addSymbol (some f.func) f.symbol
  let _ ← f.symbol
  f.aliases.foldlM (fun t other =>
    if other.name = f.func.name then some t else t.addSymbol (some f.func) (some other)) t

/-- A symbol of the ELF file, and whether it is an alias. -/
structure ListedSymbol where
  sym : Symbol
  isAlias : Bool

def ListedSymbol.isFunction (s : ListedSymbol) : Bool :=
  (s.sym.type = .func || s.sym.type = .ifunc) && decide (0 < s.sym.size) && decide (0 < s.sym.sectionIndex) &&
    !s.isAlias

/-- Any other types of symbols that need generating. -/
def makeUndefined (symbolList : List ListedSymbol) (t : SymbolTable) : Option SymbolTable :=
  symbolList.foldlM (fun t s =>
    if s.isFunction then some t
    else if blacklistedSymbol s.sym.name then some t
    else if s.sym.sectionIndex = 0 then t.addUndefinedSymbol s.sym
    else some t) t

variable (base : GnuHash.Address) (symbolList : List ListedSymbol)

def visit (region : Region) (f : Function) (t : SymbolTable) : Option (Function × SymbolTable) :=
  if blacklistedSymbol f.func.name then some (f, t)
  else if f.outside region then some (f, t)
  else do
    let f := f.setPosition (f.getAddress - base)
    let t ← makeSymbolInText t f
    let f := f.setPosition (base + f.getAddress)
    some (f, t)

def makeSymbolsAndRelocs (region : Region) (s : State) : Option State := do
  let (fs, t) ← forFunctions (visit base region) s.1 s.2
  let t ← makeUndefined symbolList t
  some (fs, t)

end ObjGen

/-! ## What the calls should leave -/

/-- The symbols of the functions in a text section, at addresses that are derived from the functions'
own, with no function moved. -/
def emit (blacklisted : CString → Bool) (makeSymbolInText : SymbolTable → Function → Option SymbolTable)
    (derived : GnuHash.Address → GnuHash.Address) (fs : List Function) (region : Region) (t : SymbolTable) : Option SymbolTable :=
  fs.foldlM (fun t f =>
    if blacklisted f.func.name || f.outside region then some t
    else makeSymbolInText t (f.setPosition (derived f.getAddress))) t

def ModuleGen.emitted (kernelCodeBase : GnuHash.Address) (config : Config) :
    List Function → Region → SymbolTable → Option SymbolTable :=
  emit blacklistedSymbol makeSymbolInText
    fun address => if config.isKernel then address - config.base + kernelCodeBase else address

def ObjGen.emitted (base : GnuHash.Address) (symbolList : List ListedSymbol) (fs : List Function) (region : Region)
    (t : SymbolTable) : Option SymbolTable := do
  let t ← emit blacklistedSymbol makeSymbolInText (fun address => address - base) fs region t
  makeUndefined symbolList t

/-- After each of the calls every function is where it was, and the table has the symbols at the
addresses derived from there. -/
def Undone (call : Region → State → Option State) (emitted : List Function → Region → SymbolTable → Option SymbolTable)
    (fs : List Function) (t : SymbolTable) (regions : List Region) : Prop :=
  ∀ done, done <+: regions →
    done.foldlM (fun s region => call region s) (fs, t) =
      (done.foldlM (fun t region => emitted fs region t) t).map fun t => (fs, t)

/-! ## Positions -/

@[simp] theorem getAddress_setPosition (f : Function) (address : GnuHash.Address) :
    (f.setPosition address).getAddress = address := rfl

@[simp] theorem setPosition_setPosition (f : Function) (a b : GnuHash.Address) :
    (f.setPosition a).setPosition b = f.setPosition b := rfl

@[simp] theorem setPosition_getAddress (f : Function) : f.setPosition f.getAddress = f := rfl

theorem setPosition_eq_self_iff (f : Function) (address : GnuHash.Address) :
    f.setPosition address = f ↔ address = f.getAddress := by
  constructor
  · exact fun h => congrArg Function.getAddress h
  · rintro rfl
    rfl

/-! ## The loop over the functions -/

/-- A run of steps that never stop. -/
theorem exists_run {σ α : Type} {step : σ → α → Option σ} (h : ∀ s a, ∃ s', step s a = some s') (as : List α) (s : σ) :
    ∃ s', as.foldlM step s = some s' := by
  have hstep : ∀ s a, True → True → ∃ s', step s a = some s' ∧ True := fun s a _ _ =>
    (h s a).imp fun _ hs' => ⟨hs', trivial⟩
  obtain ⟨s', hrun, -⟩ := foldlM_total (fun _ => True) hstep trivial (along_of_forall (fun _ _ => trivial) s as)
  exact ⟨s', hrun⟩

section Loop

variable {visit : Function → SymbolTable → Option (Function × SymbolTable)}

/-- Visits that leave the functions alone are a loop over the table only. -/
theorem forFunctions_still {fs : List Function} {one : Function → SymbolTable → Option SymbolTable}
    (h : ∀ f ∈ fs, ∀ t, visit f t = (one f t).map fun t => (f, t)) (t : SymbolTable) :
    forFunctions visit fs t = (fs.foldlM (fun t f => one f t) t).map fun t => (fs, t) := by
  induction fs generalizing t with
  | nil => rfl
  | cons f fs ih =>
    rw [List.forall_mem_cons] at h
    rw [forFunctions, h.1 t, List.foldlM_cons]
    cases one f t with
    | none => rfl
    | some t' =>
      simp only [Option.map_some, Option.bind_eq_bind, Option.bind_some, ih h.2]
      cases fs.foldlM (fun t f => one f t) t' <;> rfl

/-- Visits that move each function in their own way. -/
theorem forFunctions_moved {moved : Function → Function} (h : ∀ f t, ∃ t', visit f t = some (moved f, t'))
    (fs : List Function) (t : SymbolTable) : ∃ t', forFunctions visit fs t = some (fs.map moved, t') := by
  induction fs generalizing t with
  | nil => exact ⟨t, rfl⟩
  | cons f fs ih =>
    obtain ⟨t₁, h₁⟩ := h f t
    obtain ⟨t₂, h₂⟩ := ih t₁
    refine ⟨t₂, ?_⟩
    simp only [forFunctions, h₁, h₂, Option.bind_eq_bind, Option.bind_some, List.map_cons]

end Loop

theorem undone_of_calls {call : Region → State → Option State}
    {emitted : List Function → Region → SymbolTable → Option SymbolTable} {fs : List Function} {regions : List Region}
    (h : ∀ region ∈ regions, ∀ t, call region (fs, t) = (emitted fs region t).map fun t => (fs, t)) (t : SymbolTable) :
    Undone call emitted fs t regions := by
  rintro done ⟨rest, rfl⟩
  induction done generalizing t with
  | nil => rfl
  | cons region done ih =>
    rw [List.cons_append, List.forall_mem_cons] at h
    rw [List.foldlM_cons, List.foldlM_cons, h.1 t]
    cases emitted fs region t with
    | none => rfl
    | some t' => exact ih t' h.2

/-! ## `ModuleGen` in and out of kernel mode -/

namespace ModuleGen

theorem makeSymbolInText_isSome (t : SymbolTable) (f : Function) : ∃ t', makeSymbolInText t f = some t' := by
  have hadd : ∀ (t : SymbolTable) sym, ∃ t', t.addSymbol (some f.func) sym = some t' := by
    intro t sym
    cases sym with
    | none => exact ⟨_, rfl⟩
    | some sym => exact ⟨_, rfl⟩
  obtain ⟨t₁, h₁⟩ := hadd t f.symbol
  rw [makeSymbolInText, h₁, Option.bind_eq_bind, Option.bind_some]
  cases f.symbol with
  | none => exact ⟨t₁, rfl⟩
  | some symbol =>
    refine exists_run (fun t other => ?_) f.aliases t₁
    split_ifs
    · exact ⟨t, rfl⟩
    · exact ⟨t, rfl⟩
    · exact hadd t (some other)

variable (kernelCodeBase : GnuHash.Address) (config : Config)

/-- Where a visit leaves a function. -/
def moved (region : Region) (f : Function) : Function :=
  if !f.outside region && config.isKernel then f.setPosition (f.getAddress + kernelCodeBase) else f

theorem visit_moved (region : Region) (f : Function) (t : SymbolTable) :
    ∃ t', visit kernelCodeBase config region f t = some (moved kernelCodeBase config region f, t') := by
  rw [visit, moved, blacklistedSymbol, if_neg Bool.false_ne_true]
  by_cases hout : f.outside region
  · exact ⟨t, by simp [hout]⟩
  · cases hkernel : config.isKernel with
    | false =>
      obtain ⟨t', ht'⟩ := makeSymbolInText_isSome t f
      exact ⟨t', by simp [hout, ht']⟩
    | true =>
      obtain ⟨t', ht'⟩ := makeSymbolInText_isSome t
        (f.setPosition (f.getAddress - config.base + kernelCodeBase))
      refine ⟨t', ?_⟩
      have hback : config.base + (f.getAddress - config.base + kernelCodeBase) = f.getAddress + kernelCodeBase := by
        ring
      simp [hout, ht', hback]

theorem moved_eq_self_iff (region : Region) (f : Function) : moved kernelCodeBase config region f = f ↔
    kernelCodeBase = 0 ∨ config.isKernel = false ∨ f.outside region := by
  rw [moved]
  cases hkernel : config.isKernel with
  | false => simp
  | true =>
    by_cases hout : f.outside region
    · simp [hout]
    · simp [hout, setPosition_eq_self_iff]

/-- A visit that does not move the function leaves its symbols at the derived address. -/
theorem visit_still {region : Region} {f : Function} (h : moved kernelCodeBase config region f = f) (t : SymbolTable) :
    visit kernelCodeBase config region f t =
      (if blacklistedSymbol f.func.name || f.outside region then some t
        else makeSymbolInText t (f.setPosition
          (if config.isKernel then f.getAddress - config.base + kernelCodeBase else f.getAddress))).map
      fun t => (f, t) := by
  rw [moved_eq_self_iff] at h
  rw [visit, blacklistedSymbol, if_neg Bool.false_ne_true, Bool.false_or]
  by_cases hout : f.outside region
  · rw [if_pos hout, if_pos hout, Option.map_some]
  · rw [if_neg hout, if_neg hout]
    cases hkernel : config.isKernel with
    | false =>
      simp only [Bool.false_eq_true, if_false, setPosition_getAddress]
      cases makeSymbolInText t f <;> rfl
    | true =>
      have hzero : kernelCodeBase = 0 := by simpa [hkernel, hout] using h
      have hback : config.base + (f.getAddress - config.base + kernelCodeBase) = f.getAddress := by
        rw [hzero]
        ring
      simp only [if_true, getAddress_setPosition, setPosition_setPosition, hback, setPosition_getAddress]
      cases makeSymbolInText t (f.setPosition (f.getAddress - config.base + kernelCodeBase)) <;> rfl

/-- The rebasing is undone after each call if no function is moved by it: it adds the base of
the kernel's code twice and takes it off once. -/
theorem undone_iff (fs : List Function) (t : SymbolTable) (regions : List Region) :
    Undone (makeSymbolsAndRelocs kernelCodeBase config) (emitted kernelCodeBase config) fs t regions ↔
      kernelCodeBase = 0 ∨ config.isKernel = false ∨ ∀ region ∈ regions, ∀ f ∈ fs, f.outside region := by
  have hcall : ∀ region (s : State), ∃ t', makeSymbolsAndRelocs kernelCodeBase config region s =
      some (s.1.map (moved kernelCodeBase config region), t') := fun region s =>
    forFunctions_moved (visit_moved kernelCodeBase config region) s.1 s.2
  constructor
  · intro h
    by_cases hzero : kernelCodeBase = 0
    · exact Or.inl hzero
    cases hkernel : config.isKernel with
    | false => exact Or.inr (Or.inl rfl)
    | true =>
      refine Or.inr (Or.inr fun region hregion f hf => ?_)
      obtain ⟨before, after, rfl⟩ := List.append_of_mem hregion
      -- the calls before this one have left the functions where they were
      obtain ⟨s, hs⟩ := exists_run (fun s region => ⟨_, (hcall region s).choose_spec⟩) before (fs, t)
      have hsame : ∀ done s, done <+: before ++ region :: after →
          done.foldlM (fun s region => makeSymbolsAndRelocs kernelCodeBase config region s) (fs, t) = some s →
          s.1 = fs := by
        intro done s hprefix hrun
        rw [h done hprefix, Option.map_eq_some_iff] at hrun
        obtain ⟨t', -, rfl⟩ := hrun
        rfl
      have hfs := hsame before s (List.prefix_append _ _) hs
      obtain ⟨t', ht'⟩ := hcall region s
      have hmap : s.1.map (moved kernelCodeBase config region) = fs := by
        refine hsame (before ++ [region]) (_, t') ⟨after, by simp⟩ ?_
        rw [List.foldlM_append, hs, Option.bind_eq_bind, Option.bind_some, List.foldlM_cons, ht']
        rfl
      rw [hfs] at hmap
      have hf' : moved kernelCodeBase config region f = f :=
        List.map_inj_left.1 (hmap.trans (List.map_id fs).symm) f hf
      rcases (moved_eq_self_iff kernelCodeBase config region f).1 hf' with h0 | hoff | hout
      · exact absurd h0 hzero
      · rw [hkernel] at hoff
        exact absurd hoff Bool.true_eq_false.mp
      · exact hout
  · intro h
    refine undone_of_calls (fun region hregion t => ?_) t
    refine forFunctions_still (fun f hf t => ?_) t
    refine visit_still kernelCodeBase config ((moved_eq_self_iff kernelCodeBase config region f).2 ?_) t
    exact h.imp_right (Or.imp_right fun h => h region hregion f hf)

end ModuleGen

/-! ## `ObjGen` -/

namespace ObjGen

/-- What was taken off the address is added again. -/
theorem visit_still (base : GnuHash.Address) (region : Region) (f : Function) (t : SymbolTable) :
    visit base region f t =
      (if blacklistedSymbol f.func.name || f.outside region then some t
        else makeSymbolInText t (f.setPosition (f.getAddress - base))).map fun t => (f, t) := by
  rw [visit]
  cases hlist : blacklistedSymbol f.func.name with
  | true => rfl
  | false =>
    by_cases hout : f.outside region
    · simp [hout]
    · have hback : base + (f.getAddress - base) = f.getAddress := by ring
      simp only [Bool.false_eq_true, if_false, Bool.false_or, hout, getAddress_setPosition, setPosition_setPosition,
        hback, setPosition_getAddress]
      cases makeSymbolInText t (f.setPosition (f.getAddress - base)) <;> rfl

theorem undone (base : GnuHash.Address) (symbolList : List ListedSymbol) (fs : List Function) (t : SymbolTable)
    (regions : List Region) :
    Undone (makeSymbolsAndRelocs base symbolList) (emitted base symbolList) fs t regions := by
  refine undone_of_calls (fun region _ t => ?_) t
  rw [makeSymbolsAndRelocs, forFunctions_still (fun f _ t => visit_still base region f t), emitted, emit]
  generalize fs.foldlM (m := Option) _ t = out
  cases out with
  | none => rfl
  | some t' =>
    simp only [Option.map_some, Option.bind_eq_bind, Option.bind_some]
    cases makeUndefined symbolList t' <;> rfl

end ObjGen

/-! ## Both generators -/

/-- Where the rebasing is undone after each call for each text section: in `ObjGen` always, in
`ModuleGen` unless the kernel's code has a base and a function is in one of the sections. -/
theorem rebasing_undone_iff (kernelCodeBase : GnuHash.Address) (config : ModuleGen.Config)
    (symbolList : List ObjGen.ListedSymbol) (fs : List Function) (t : SymbolTable) (regions : List Region) :
    Undone (ModuleGen.makeSymbolsAndRelocs kernelCodeBase config) (ModuleGen.emitted kernelCodeBase config)
        fs t regions ∧
      Undone (ObjGen.makeSymbolsAndRelocs config.base symbolList) (ObjGen.emitted config.base symbolList)
        fs t regions ↔
      kernelCodeBase = 0 ∨ config.isKernel = false ∨ ∀ region ∈ regions, ∀ f ∈ fs, f.outside region := by
  rw [and_iff_left (ObjGen.undone config.base symbolList fs t regions)]
  exact ModuleGen.undone_iff kernelCodeBase config fs t regions

/-- A function of 16 bytes in the first page of the kernel's code. -/
def kernelFunction : Function := ⟨⟨⟨[102], by decide⟩, 0xffffffff81000000, 0x10⟩, none, []⟩

/-- One call for the text section moves the kernel's function. -/
theorem kernel_function_moved :
    ¬ ∀ (kernelCodeBase : GnuHash.Address) (config : ModuleGen.Config) (fs : List Function) (t : SymbolTable)
      (regions : List Region), Undone (ModuleGen.makeSymbolsAndRelocs kernelCodeBase config)
        (ModuleGen.emitted kernelCodeBase config) fs t regions := by
  intro h
  have hcases := (ModuleGen.undone_iff _ _ _ _ _).1 (h 0xffffffff81000000 ⟨true, 0xffffffff81000000⟩
    [kernelFunction] (.empty []) [⟨0xffffffff81000000, 0x1000⟩])
  rcases hcases with hbase | hmode | hout
  · exact absurd hbase (by decide)
  · exact absurd hmode (by decide)
  · exact absurd (hout _ (List.mem_singleton_self _) _ (List.mem_singleton_self _)) (by decide)

end Egalito.Generate.SymbolRebase
