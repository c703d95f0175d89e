import Egalito.Lib.Run
import Egalito.Pass.HandleDataRelocs
/-!
# Runs of the data relocation pass

The relocations of a module have addresses of their own, so a run changes the
variables of each one apart. A run is correct except where it finds a variable
without destination again and could now resolve it.
-/

open Egalito.Lib Egalito.Elf

namespace Egalito.HandleDataRelocs

/-! ## What a run should do -/

/-- The variables at an address, in any section. -/
def slot (vars : Variables) (address : Address) : Variables := vars.filter (·.address = address)

def Module.addressOf (m : Module) (job : SectionId × Reloc) : Address := job.2.address + m.baseAddress

structure RunCorrect (m : Module) (js : Jobs) (run : Run) (vars vars' : Variables) : Prop where
  /-- One variable for each relocation address. -/
  one : ∀ job ∈ js, (slot vars' (m.addressOf job)).length = 1
  /-- A variable with a destination keeps it. -/
  kept : ∀ var ∈ vars, var.dest.isSome → var ∈ vars'
  /-- A link that could be resolved is the destination, where there was none. -/
  linked : ∀ job ∈ js, ∀ l, resolveVariableLink run m job.2 = some (some l) →
    (∀ var ∈ slot vars (m.addressOf job), var.dest = none) → ∃ var ∈ slot vars' (m.addressOf job), var.dest = some l

/-- No variable that is there without a destination has a relocation that can be resolved now. -/
def NoLateLink (m : Module) (js : Jobs) (run : Run) (vars : Variables) : Prop :=
  ∀ job ∈ js, ∀ var ∈ slot vars (m.addressOf job), var.dest = none →
    ∀ l, resolveVariableLink run m job.2 ≠ some (some l)

/-- `RelocList::add` refuses a second relocation for an address. -/
def DistinctAddresses (js : Jobs) : Prop := ∀ j ∈ js, ∀ k ∈ js, j.2.address = k.2.address → j = k

/-- A variable that is at a relocation address is the only one, in the section of the relocation. -/
def Placed (m : Module) (js : Jobs) (vars : Variables) : Prop :=
  ∀ job ∈ js, slot vars (m.addressOf job) = [] ∨ ∃ var, slot vars (m.addressOf job) = [var] ∧ var.parent = job.1

/-! ## Slots -/

theorem mem_slot {vars : Variables} {address : Address} {var : DataVariable} :
    var ∈ slot vars address ↔ var ∈ vars ∧ var.address = address := by
  simp [slot]

theorem slot_append (vars : Variables) (var : DataVariable) (address : Address) :
    slot (vars ++ [var]) address = slot vars address ++ if var.address = address then [var] else [] := by
  unfold slot
  rw [List.filter_append]
  split_ifs with h <;> simp [h]

theorem slot_updateVariable_ne {sec : SectionId} {a b : Address} {f : DataVariable → DataVariable}
    (hf : ∀ var, (f var).address = a) (hb : b ≠ a) (vars : Variables) :
    slot (updateVariable sec a f vars) b = slot vars b := by
  induction vars with
  | nil => rfl
  | cons var vars ih =>
    unfold updateVariable
    split_ifs with h
    · have hvar : var.address = a := by simpa [at_] using (by simpa [at_] using h : var.parent = sec ∧ var.address = a).2
      simp [slot, hf, hvar, Ne.symm hb]
    · unfold slot at ih ⊢
      rw [List.filter_cons, List.filter_cons, ih]

/-- Where the one variable at an address is in this section, it is the one that is found and changed. -/
theorem slot_updateVariable {sec : SectionId} {a : Address} {f : DataVariable → DataVariable} {var : DataVariable}
    (hf : ∀ var, (f var).address = a) {vars : Variables} (hslot : slot vars a = [var]) (hsec : var.parent = sec) :
    slot (updateVariable sec a f vars) a = [f var] := by
  induction vars with
  | nil => cases hslot
  | cons v vars ih =>
    unfold updateVariable
    by_cases hv : v.address = a
    · have hcons : slot (v :: vars) a = v :: slot vars a := by simp [slot, hv]
      rw [hcons, List.cons.injEq] at hslot
      obtain ⟨rfl, hnil⟩ := hslot
      rw [if_pos (by simp [at_, hsec, hv])]
      have hcons' : slot (f v :: vars) a = f v :: slot vars a := by simp [slot, hf]
      rw [hcons', hnil]
    · have hskip : ∀ vs : Variables, slot (v :: vs) a = slot vs a := fun vs => by simp [slot, hv]
      rw [if_neg (by simp [at_, hv]), hskip]
      rw [hskip] at hslot
      exact ih hslot

/-- What is found is the one variable at the address, where there is one. -/
theorem findVariable_eq {sec : SectionId} {a : Address} {vars : Variables}
    (hslot : ∀ var ∈ slot vars a, var.parent = sec) : findVariable vars sec a = (slot vars a).head? := by
  unfold findVariable slot
  rw [List.head?_filter]
  induction vars with
  | nil => rfl
  | cons v vars ih =>
    by_cases hv : v.address = a
    · have hsec : v.parent = sec := hslot v (mem_slot.2 ⟨List.mem_cons_self, hv⟩)
      simp [at_, hv, hsec]
    · have hrest : ∀ var ∈ slot vars a, var.parent = sec := fun var hvar =>
        hslot var (mem_slot.2 ⟨List.mem_cons_of_mem _ (mem_slot.1 hvar).1, (mem_slot.1 hvar).2⟩)
      rw [List.find?_cons_of_neg (by simp [at_, hv]), List.find?_cons_of_neg (by simp [hv]), ih hrest]

/-! ## One relocation -/

/-- What handling a relocation does to the variables at its address. -/
def Handled (run : Run) (m : Module) (job : SectionId × Reloc) (old new : Variables) : Prop :=
  ∃ w, new = [w] ∧ w.parent = job.1 ∧ (w.dest.isSome ∨ job.2.type ≠ .copy) ∧
    ((old = [] ∧ ∀ l, resolveVariableLink run m job.2 = some (some l) → w.dest = some l) ∨
      ∃ v, old = [v] ∧ (v.dest.isSome ∨ job.2.type ≠ .copy → w = v))

theorem not_copy_of_resolved {run : Run} {m : Module} {reloc : Reloc} {l : Link}
    (h : resolveVariableLink run m reloc = some (some l)) : reloc.type ≠ .copy := by
  intro hcopy
  simp [resolveVariableLink, hcopy] at h

theorem finalizeDataVariable_spec {reloc : Reloc} {var w : DataVariable} (h : finalizeDataVariable reloc var = some w) :
    w.parent = var.parent ∧ w.address = var.address ∧ (w.dest.isSome ∨ reloc.type ≠ .copy) ∧
      (reloc.type ≠ .copy → w = var) := by
  unfold finalizeDataVariable at h
  split_ifs at h with hcopy
  · obtain ⟨symbol, -, hw⟩ := Option.bind_eq_some_iff.1 h
    cases hw
    exact ⟨rfl, rfl, .inl rfl, fun hne => absurd hcopy hne⟩
  · cases h
    exact ⟨rfl, rfl, .inr hcopy, fun _ => rfl⟩

variable {run : Run} {m : Module} {job : SectionId × Reloc} {js : Jobs} {vars vars' : Variables}

/-- The other addresses are left as they are. -/
theorem handleReloc_spec
    (hplaced : slot vars (m.addressOf job) = [] ∨ ∃ v, slot vars (m.addressOf job) = [v] ∧ v.parent = job.1)
    (h : handleReloc run m job.1 vars job.2 = some vars') :
    (∀ b, b ≠ m.addressOf job → slot vars' b = slot vars b) ∧
      Handled run m job (slot vars (m.addressOf job)) (slot vars' (m.addressOf job)) := by
  rcases hplaced with hnil | ⟨v, hslot, hv⟩
  · have hfind : findVariable vars job.1 (job.2.address + m.baseAddress) = none := by
      change findVariable vars job.1 (m.addressOf job) = none
      rw [findVariable_eq (by simp [hnil]), hnil]
      rfl
    unfold handleReloc at h
    dsimp only at h
    rw [hfind] at h
    obtain ⟨link, hlink, h⟩ := Option.bind_eq_some_iff.1 h
    change (if (!m.dataRegionList.contains job.1 (m.addressOf job)) = true then none else _) = _ at h
    split_ifs at h
    obtain ⟨w, hw, h⟩ := Option.bind_eq_some_iff.1 h
    cases h
    obtain ⟨hparent, haddress, hcopy, heq⟩ := finalizeDataVariable_spec hw
    have hwa : w.address = m.addressOf job := haddress
    refine ⟨fun b hb => ?_, w, ?_, hparent, hcopy, .inl ⟨hnil, fun l hl => ?_⟩⟩
    · rw [slot_append, hwa, if_neg (Ne.symm hb), List.append_nil]
    · rw [slot_append, hwa, hnil]
      exact if_pos rfl
    · rw [heq (not_copy_of_resolved hl)]
      exact Option.some.inj (hlink.symm.trans hl)
  · have hfind : findVariable vars job.1 (job.2.address + m.baseAddress) = some v := by
      change findVariable vars job.1 (m.addressOf job) = some v
      rw [findVariable_eq (by simp [hslot, hv]), hslot]
      rfl
    unfold handleReloc at h
    dsimp only at h
    rw [hfind] at h
    change (if v.dest.isSome = true then some vars else _) = _ at h
    split_ifs at h with hdest
    · cases h
      exact ⟨fun _ _ => rfl, v, hslot, hv, .inl hdest, .inr ⟨v, hslot, fun _ => rfl⟩⟩
    · obtain ⟨_, -, h⟩ := Option.bind_eq_some_iff.1 h
      obtain ⟨w, hw, h⟩ := Option.bind_eq_some_iff.1 h
      cases h
      obtain ⟨hparent, haddress, hcopy, heq⟩ := finalizeDataVariable_spec hw
      have hva : v.address = m.addressOf job := (mem_slot.1 (hslot ▸ List.mem_cons_self : v ∈ slot vars _)).2
      refine ⟨fun b hb => slot_updateVariable_ne (fun _ => haddress.trans hva) hb vars, w,
        slot_updateVariable (fun _ => haddress.trans hva) hslot hv, hparent.trans hv, hcopy, .inr ⟨v, hslot, ?_⟩⟩
      rintro (hd | hne)
      · exact absurd hd hdest
      · exact heq hne

/-! ## A run -/

theorem Handled.trans {slot₀ slot₁ slot₂ : Variables} (h₁ : Handled run m job slot₀ slot₁)
    (h₂ : Handled run m job slot₁ slot₂) : Handled run m job slot₀ slot₂ := by
  obtain ⟨w, rfl, -, hcopy, _⟩ := id h₁
  obtain ⟨w', rfl, -, -, ⟨hnil, -⟩ | ⟨v, hv, hkeep⟩⟩ := h₂
  · cases hnil
  · cases hv
    exact hkeep hcopy ▸ h₁

theorem Handled.placed {old new : Variables} (h : Handled run m job old new) :
    new = [] ∨ ∃ v, new = [v] ∧ v.parent = job.1 := by
  obtain ⟨w, hw, hparent, -⟩ := h
  exact .inr ⟨w, hw, hparent⟩

theorem eq_of_addressOf (hdistinct : DistinctAddresses js) {j k : SectionId × Reloc} (hj : j ∈ js) (hk : k ∈ js)
    (h : m.addressOf j = m.addressOf k) : j = k :=
  hdistinct j hj k hk ((BitVec.add_left_inj _).1 h)

theorem handleReloc_placed (hdistinct : DistinctAddresses js) (hjob : job ∈ js) (hplaced : Placed m js vars)
    (h : handleReloc run m job.1 vars job.2 = some vars') : Placed m js vars' := by
  obtain ⟨hother, hhandled⟩ := handleReloc_spec (hplaced job hjob) h
  intro k hk
  by_cases hkj : m.addressOf k = m.addressOf job
  · obtain rfl := eq_of_addressOf hdistinct hk hjob hkj
    exact hhandled.placed
  · rw [hother _ hkj]
    exact hplaced k hk

/-- Every relocation that the loop has done is handled, and what has no relocation is left alone. -/
theorem jobs_handled (hdistinct : DistinctAddresses js) {rest : Jobs} (hrest : rest ⊆ js) (hplaced : Placed m js vars)
    (h : rest.foldlM (fun vars job => handleReloc run m job.1 vars job.2) vars = some vars') :
    Placed m js vars' ∧ (∀ b, (∀ job ∈ rest, m.addressOf job ≠ b) → slot vars' b = slot vars b) ∧
      ∀ job ∈ rest, Handled run m job (slot vars (m.addressOf job)) (slot vars' (m.addressOf job)) := by
  induction rest generalizing vars with
  | nil =>
    cases h
    exact ⟨hplaced, fun _ _ => rfl, fun _ hjob => nomatch hjob⟩
  | cons job rest ih =>
    rw [List.foldlM_cons] at h
    obtain ⟨vars₁, h₁, h⟩ := Option.bind_eq_some_iff.1 h
    obtain ⟨hjob, hsub⟩ := List.cons_subset.1 hrest
    obtain ⟨hother, hhandled⟩ := handleReloc_spec (hplaced job hjob) h₁
    obtain ⟨hplaced', hsame, hall⟩ := ih hsub (handleReloc_placed hdistinct hjob hplaced h₁) h
    refine ⟨hplaced', fun b hb => ?_, fun k hk => ?_⟩
    · rw [hsame b fun k hk => hb k (List.mem_cons_of_mem _ hk),
        hother b (Ne.symm (hb job List.mem_cons_self))]
    · by_cases hkr : k ∈ rest
      · -- The relocation comes (again) later in the list.
        by_cases hkj : m.addressOf k = m.addressOf job
        · obtain rfl := eq_of_addressOf hdistinct (hrest hk) hjob hkj
          exact hhandled.trans (hall k hkr)
        · rw [← hother _ hkj]
          exact hall k hkr
      · obtain rfl : k = job := (List.mem_cons.1 hk).resolve_right hkr
        rw [hsame _ fun j hj hjk => hkr (eq_of_addressOf hdistinct (hsub hj) hjob hjk ▸ hj)]
        exact hhandled

variable (hjobs : jobs m = some js) (hdistinct : DistinctAddresses js) (hplaced : Placed m js vars)

include hjobs hdistinct hplaced in
theorem visit_handled (h : visit m vars run = some vars') :
    Placed m js vars' ∧ (∀ b, (∀ job ∈ js, m.addressOf job ≠ b) → slot vars' b = slot vars b) ∧
      ∀ job ∈ js, Handled run m job (slot vars (m.addressOf job)) (slot vars' (m.addressOf job)) := by
  unfold visit at h
  rw [hjobs] at h
  exact jobs_handled hdistinct (List.Subset.refl js) hplaced h

include hjobs hdistinct hplaced in
/-- One run is correct when it has nothing to add to a variable that is there already. -/
theorem runCorrect_iff (h : visit m vars run = some vars') :
    RunCorrect m js run vars vars' ↔ NoLateLink m js run vars := by
  obtain ⟨-, hsame, hall⟩ := visit_handled hjobs hdistinct hplaced h
  constructor
  · intro hcorrect job hjob var hvar hdest l hl
    obtain ⟨w, hw, -, -, ⟨hnil, -⟩ | ⟨v, hv, hkeep⟩⟩ := hall job hjob
    · rw [hnil] at hvar
      cases hvar
    · rw [hv, List.mem_singleton] at hvar
      subst hvar
      obtain ⟨w', hw', hlink⟩ := hcorrect.linked job hjob l hl (by simp [hv, hdest])
      rw [hw, List.mem_singleton] at hw'
      rw [hw', hkeep (.inr (not_copy_of_resolved hl)), hdest] at hlink
      cases hlink
  · intro hlate
    refine ⟨fun job hjob => ?_, fun var hvar hdest => ?_, fun job hjob l hl hnone => ?_⟩
    · obtain ⟨w, hw, -⟩ := hall job hjob
      rw [hw]
      rfl
    · have hmem : var ∈ slot vars var.address := mem_slot.2 ⟨hvar, rfl⟩
      refine (mem_slot.1 (?_ : var ∈ slot vars' var.address)).1
      by_cases hjob : ∃ job ∈ js, m.addressOf job = var.address
      · obtain ⟨job, hjob, haddress⟩ := hjob
        obtain ⟨w, hw, -, -, ⟨hnil, -⟩ | ⟨v, hv, hkeep⟩⟩ := hall job hjob
        · rw [← haddress, hnil] at hmem
          cases hmem
        · rw [← haddress, hv, List.mem_singleton] at hmem
          subst hmem
          rw [← haddress, hw, hkeep (.inl hdest)]
          exact List.mem_singleton_self _
      · rw [hsame _ fun job hj haddress => hjob ⟨job, hj, haddress⟩]
        exact hmem
    · obtain ⟨w, hw, -, -, ⟨hnil, hlink⟩ | ⟨v, hv, -⟩⟩ := hall job hjob
      · exact ⟨w, hw ▸ List.mem_singleton_self w, hlink l hl⟩
      · have hvm : v ∈ slot vars (m.addressOf job) := hv ▸ List.mem_singleton_self v
        exact absurd hl (hlate job hjob v hvm (hnone v hvm) l)

/-- An undefined symbol, as the dynamic symbol table has it for an import. -/
def importedSymbol : Symbol := ⟨0, 8, "environ".toList, .object, .bindGlobal, 0⟩

def gotReloc : Reloc := ⟨0x3ff0, .globDat, some importedSymbol, 0⟩

def gotModule : Module where
  baseAddress := 0
  sections := [⟨".rela.dyn", false, some ⟨0, [gotReloc]⟩⟩]
  dataRegionList := ⟨[⟨⟨0x3000, 0x2000⟩, [⟨0x3f00, 0x100⟩]⟩], none⟩

/-- The symbol is in no chunk of the module itself. -/
def internalRun : Run := ⟨true, false, fun _ _ _ => none, fun _ _ => none⟩

/-- Another module has the symbol as its variable 7. -/
def externalRun : Run := ⟨false, false, fun _ _ _ => none, fun _ _ => some (.dataOffsetLink, 7)⟩

end Egalito.HandleDataRelocs
