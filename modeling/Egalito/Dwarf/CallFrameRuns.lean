import Egalito.Dwarf.CallFrame
/-!
# Runs of the call frame machine

Under its condition an instruction of the decoder leaves a state with the rules
of the standard's row, and so does a run whose steps all meet it.
-/

open Egalito.Lib

namespace Egalito.Dwarf

/-- The decoder and the machine have the same rows. -/
structure Tracks (d : FrameState) (e : DecoderState) : Prop where
  row : Represents d.row e.state
  saved : List.Forall₂ Represents d.saved e.rememberedState

section Step

variable {f : EhFrame} {fuel : Nat} {cie : DecoderCIE} {initialRow : Option Row} {initial : Option DwarfState}
  {d d' : FrameState} {e : DecoderState} {c c' : DwarfCursor} {reg : BitVec 64}

/-! ## Rules -/

theorem setRegister_eq {type : Nat} {offset : BitVec 64} (hreg : reg.toNat < DwarfState.numRegisters) :
    setRegister e reg type offset = some { e with state :=
      { e.state with registers := Function.update e.state.registers reg.toNat ⟨type, offset⟩ } } := by
  rw [setRegister, DwarfState.set, if_pos hreg]
  rfl

theorem setRegister_tracks (type : Nat) (offset : BitVec 64) (h : Tracks d e)
    (hreg : reg.toNat < DwarfState.numRegisters) :
    ∃ e', setRegister e reg type offset = some e' ∧
      Tracks (d.setRule reg (DwarfRegisterData.rule ⟨type, offset⟩)) e' := by
  refine ⟨_, setRegister_eq hreg, ⟨⟨fun r hr => ?_, h.row.cfa⟩, h.saved⟩⟩
  by_cases hrr : r = reg.toNat
  · subst hrr
    simp [FrameState.setRule]
  · simpa [FrameState.setRule, Function.update_of_ne hrr] using h.row.rules r hr

theorem setCfa_tracks {state : DwarfState} {rule : CfaRule} (h : Tracks d e)
    (hregisters : state.registers = e.state.registers) (hrule : state.cfaRule = rule) :
    Tracks (d.setCfa rule) { e with state := state } := by
  refine ⟨⟨fun r hr => ?_, fun rule' hrule' => ?_⟩, h.saved⟩
  · rw [hregisters]
    exact h.row.rules r hr
  · rw [FrameState.setCfa, Option.some.injEq] at hrule'
    rw [hrule, hrule']

/-- A rule of a register and an offset is that of the state. -/
theorem cfa_of_registerOffset {offset : BitVec 64} (h : Tracks d e) (hcfa : d.row.cfa = some (.registerOffset reg offset)) :
    e.state.cfaExpression = 0 ∧ e.state.cfaRegister = reg ∧ e.state.cfaOffset = offset := by
  have hrule := h.row.cfa _ hcfa
  unfold DwarfState.cfaRule at hrule
  split at hrule
  · case isTrue hzero => simpa [hzero] using hrule
  · cases hrule

/-! ## Operands -/

theorem register_of_standard {P : Nat → DwarfCursor → Prop} (hok : RegisterOk f c P)
    (h : (standardUleb128 f).run c = some (reg, c')) :
    (nextUleb128 f).run c = some (reg, c') ∧ reg.toNat < DwarfState.numRegisters ∧ P reg.toNat c' := by
  have huleb : UlebOk f c := fun gs c'' hgs => .inl ((hok gs c'' hgs).1.trans (by decide))
  obtain ⟨gs, hgs, hvalue⟩ := standardUleb128_groups h
  have hreg := hok gs c' hgs
  rw [hvalue] at hreg
  exact ⟨nextUleb128_of_standard huleb h, hreg⟩

theorem behind_of_operandsOk {P : DwarfCursor → Prop} (hok : OperandsOk f c P)
    (h : (standardUleb128 f).run c = some (reg, c')) : P c' := by
  obtain ⟨gs, hgs, -⟩ := standardUleb128_groups h
  exact hok.2 gs c' hgs

/-- A number that is moved over is moved over by both readers. -/
theorem leb128_moves {gs : List Nat} (h : (operandGroups f).run c = some (gs, c')) :
    (∃ v, (nextUleb128 f).run c = some (v, c')) ∧ ∃ v, (nextSleb128 f).run c = some (v, c') := by
  obtain ⟨-, -, byte, -, hloop⟩ := nextLeb128_groups h 0 0
  refine ⟨⟨_, run_bind_eq_some.2 ⟨_, c', hloop, rfl⟩⟩, ?_⟩
  by_cases hsign : byte &&& 0x40 ≠ 0 ∧ 0 + 7 * gs.length < 128
  · exact ⟨_, run_bind_eq_some.2 ⟨_, c', hloop, by dsimp only; rw [if_pos hsign]; rfl⟩⟩
  · exact ⟨_, run_bind_eq_some.2 ⟨_, c', hloop, by dsimp only; rw [if_neg hsign]; rfl⟩⟩

/-- So is a block that can be decoded. -/
theorem skipExpression_of_standard {block : Address} (hok : BlockOk f fuel e.state c)
    (h : (standardBlock f).run c = some (block, c')) :
    (skipExpression f fuel e).run c = some ((), c') ∧ block = c.cursor := by
  obtain ⟨huleb, hsome⟩ := hok
  obtain ⟨v, hv⟩ := Option.isSome_iff_exists.1 hsome
  obtain ⟨_, _, hget, h⟩ := run_bind_eq_some.1 h
  cases hget
  obtain ⟨length, c₁, hlength, h⟩ := run_bind_eq_some.1 h
  obtain ⟨_, _, hskip, h⟩ := run_bind_eq_some.1 h
  cases hskip
  cases h
  refine ⟨run_bind_eq_some.2 ⟨c, c, rfl, ?_⟩, rfl⟩
  refine run_bind_eq_some.2 ⟨v, c, by rw [hv]; rfl, ?_⟩
  exact run_bind_eq_some.2 ⟨length, c₁, nextUleb128_of_standard huleb hlength, rfl⟩

/-! ## Instructions -/

/-- The instructions that set a register from an unsigned operand. -/
theorem setRule_unsigned {type : Nat} (value : BitVec 64 → BitVec 64) {rule : BitVec 64 → RegisterRule}
    (hrule : ∀ x, DwarfRegisterData.rule ⟨type, value x⟩ = rule x) (h : Tracks d e)
    (hok : RegisterOk f c fun _ => UlebOk f)
    (hrun : StateT.run (do
      let reg ← standardUleb128 f
      let x ← standardUleb128 f
      return d.setRule reg (rule x)) c = some (d', c')) :
    ∃ e', StateT.run (do
      let reg ← nextUleb128 f
      let x ← nextUleb128 f
      setRegister e reg type (value x) : CursorM DecoderState) c = some (e', c') ∧ Tracks d' e' := by
  obtain ⟨reg, c₁, hreg, hrun⟩ := run_bind_eq_some.1 hrun
  obtain ⟨x, c₂, hx, hrun⟩ := run_bind_eq_some.1 hrun
  cases hrun
  obtain ⟨hread, hlt, hoperand⟩ := register_of_standard hok hreg
  obtain ⟨e', he', htracks⟩ := setRegister_tracks type (value x) h hlt
  rw [hrule] at htracks
  refine ⟨e', run_bind_eq_some.2 ⟨reg, c₁, hread, ?_⟩, htracks⟩
  exact run_bind_eq_some.2 ⟨x, _, nextUleb128_of_standard hoperand hx, by rw [he']; rfl⟩

/-- Those with a signed operand. -/
theorem setRule_signed {type : Nat} (value : BitVec 64 → BitVec 64) {rule : BitVec 64 → RegisterRule}
    (hrule : ∀ x, DwarfRegisterData.rule ⟨type, value x⟩ = rule x) (h : Tracks d e)
    (hok : RegisterOk f c fun _ => SlebOk f)
    (hrun : StateT.run (do
      let reg ← standardUleb128 f
      let x ← standardSleb128 f
      return d.setRule reg (rule x)) c = some (d', c')) :
    ∃ e', StateT.run (do
      let reg ← nextUleb128 f
      let x ← nextSleb128 f
      setRegister e reg type (value x) : CursorM DecoderState) c = some (e', c') ∧ Tracks d' e' := by
  obtain ⟨reg, c₁, hreg, hrun⟩ := run_bind_eq_some.1 hrun
  obtain ⟨x, c₂, hx, hrun⟩ := run_bind_eq_some.1 hrun
  cases hrun
  obtain ⟨hread, hlt, hoperand⟩ := register_of_standard hok hreg
  obtain ⟨e', he', htracks⟩ := setRegister_tracks type (value x) h hlt
  rw [hrule] at htracks
  refine ⟨e', run_bind_eq_some.2 ⟨reg, c₁, hread, ?_⟩, htracks⟩
  exact run_bind_eq_some.2 ⟨x, _, nextSleb128_of_standard hoperand hx, by rw [he']; rfl⟩

/-- Those without one. -/
theorem setRule_plain {type : Nat} {rule : RegisterRule} (hrule : DwarfRegisterData.rule ⟨type, 0⟩ = rule)
    (h : Tracks d e) (hok : RegisterOk f c fun _ _ => True)
    (hrun : StateT.run (do
      let reg ← standardUleb128 f
      return d.setRule reg rule) c = some (d', c')) :
    ∃ e', StateT.run (do
      let reg ← nextUleb128 f
      setRegister e reg type 0 : CursorM DecoderState) c = some (e', c') ∧ Tracks d' e' := by
  obtain ⟨reg, c₁, hreg, hrun⟩ := run_bind_eq_some.1 hrun
  cases hrun
  obtain ⟨hread, hlt, -⟩ := register_of_standard hok hreg
  obtain ⟨e', he', htracks⟩ := setRegister_tracks type 0 h hlt
  rw [hrule] at htracks
  exact ⟨e', run_bind_eq_some.2 ⟨reg, _, hread, by rw [he']; rfl⟩, htracks⟩

/-- `DW_CFA_restore` brings back the rule that the CIE left. -/
theorem restoreRegister_tracks (hinitial : Option.Rel Represents initialRow initial) (h : Tracks d e)
    (hlt : reg.toNat < DwarfState.numRegisters) (hrun : standardRestore initialRow d reg = some d') :
    ∃ e', restoreRegister initial e reg = some e' ∧ Tracks d' e' := by
  cases hinitial with
  | none => cases hrun
  | @some row state hrow =>
    cases hrun
    obtain ⟨e', he', htracks⟩ :=
      setRegister_tracks (state.registers reg.toNat).type (state.registers reg.toNat).offset h hlt
    refine ⟨e', ?_, ?_⟩
    · rw [← he']
      simp [restoreRegister, DwarfState.get, hlt]
    · rwa [← hrow.rules reg.toNat hlt]

theorem nextSigned_moves {n : Nat} {v : BitVec 64} (h : (next f n).run c = some (v, c')) :
    (nextSigned f n).run c = some ((v.setWidth (8 * n)).signExtend 64, c') :=
  run_bind_eq_some.2 ⟨v, c', h, rfl⟩

/-- An encoded location is moved over. -/
theorem nextEncodedPointer_moves {encoding : BitVec 64} (h : (standardLocation f encoding).run c = some ((), c')) :
    ∃ v, (nextEncodedPointer f encoding).run c = some (v, c') := by
  have homit : encoding ≠ encodingOmit := by
    rintro rfl
    cases h
  -- a relative location starts at the cursor, and the base moves nothing
  have hbase : ∀ {x : CursorM (BitVec 64)} {v : BitVec 64}, x.run c = some (v, c') →
      ∃ v, StateT.run (if encoding &&& 0x70 = 0x10 then do
          let base ← (·.cursor) <$> get
          let value ← x
          pure (base + value)
        else do
          let base ← pure 0
          let value ← x
          pure (base + value)) c = some (v, c') := by
    intro x v hx
    by_cases hpcrel : encoding &&& 0x70 = 0x10
    · rw [if_pos hpcrel]
      exact ⟨_, run_bind_eq_some.2 ⟨c.cursor, c, rfl, run_bind_eq_some.2 ⟨v, c', hx, rfl⟩⟩⟩
    · rw [if_neg hpcrel]
      exact ⟨_, run_bind_eq_some.2 ⟨0, c, rfl, run_bind_eq_some.2 ⟨v, c', hx, rfl⟩⟩⟩
  rw [nextEncodedPointer, if_neg homit]
  unfold standardLocation at h
  generalize (encoding &&& 0x0f).toNat = format at h ⊢
  split at h
  case h_10 => cases h
  all_goals
    obtain ⟨v, c₁, hv, h⟩ := run_bind_eq_some.1 h
    cases h
  case h_8 => exact hbase (leb128_moves hv).1.choose_spec
  case h_9 => exact hbase (leb128_moves hv).2.choose_spec
  all_goals first
    | exact hbase hv
    | exact hbase (nextSigned_moves hv)

/-- Where the augmentation is known, a location is moved over. -/
theorem setLoc_tracks (fuel : Nat) (h : Tracks d e) (hok : cie.augmentation.isSome)
    (hrun : (standardInstruction f cie initialRow d .setLoc).run c = some (d', c')) :
    ∃ e', (runInstruction f fuel cie e .setLoc).run c = some (e', c') ∧ Tracks d' e' := by
  obtain ⟨augmentation, haug⟩ := Option.isSome_iff_exists.1 hok
  obtain ⟨_, c₁, hloc, hrun⟩ := run_bind_eq_some.1 hrun
  cases hrun
  rw [haug] at hloc
  obtain ⟨v, hv⟩ := nextEncodedPointer_moves hloc
  refine ⟨{ e with cfaIp := v }, ?_, ⟨h.row, h.saved⟩⟩
  rw [runInstruction, haug]
  exact run_bind_eq_some.2 ⟨augmentation, c, rfl, run_bind_eq_some.2 ⟨v, _, hv, rfl⟩⟩

/-- The instructions for a CFA rule of a register and an offset. -/
theorem defCfa_tracks {offset : BitVec 64} (h : Tracks d e) :
    Tracks (d.setCfa (.registerOffset reg offset))
      { e with state := { e.state with cfaRegister := reg, cfaOffset := offset, cfaExpression := 0 } } :=
  setCfa_tracks h rfl rfl

/-- A new offset keeps the register, and that there is no expression. -/
theorem defCfaOffset_tracks {old offset : BitVec 64} (h : Tracks d e) (hcfa : d.row.cfa = some (.registerOffset reg old)) :
    Tracks (d.setCfa (.registerOffset reg offset)) { e with state := { e.state with cfaOffset := offset } } := by
  obtain ⟨hzero, hreg, -⟩ := cfa_of_registerOffset h hcfa
  refine setCfa_tracks h rfl ?_
  rw [DwarfState.cfaRule, if_pos hzero, hreg]

theorem defCfaExpression_tracks {block : Address} (h : Tracks d e) (hblock : block ≠ 0) :
    Tracks (d.setCfa (.expression block)) { e with state := { e.state with cfaExpression := block } } :=
  setCfa_tracks h rfl (if_neg hblock)

/-- The machine changes a rule of a register and an offset only. -/
theorem of_registerOffset {rule : BitVec 64 → BitVec 64 → CfaRule}
    (hrun : StateT.run (match d.row.cfa with
      | some (.registerOffset reg offset) => pure (d.setCfa (rule reg offset))
      | _ => failure : CursorM FrameState) c = some (d', c')) :
    ∃ reg offset, d.row.cfa = some (.registerOffset reg offset) ∧ d' = d.setCfa (rule reg offset) ∧ c' = c := by
  split at hrun
  · case h_1 reg offset hcfa =>
    cases hrun
    exact ⟨reg, offset, hcfa, rfl, rfl⟩
  · cases hrun

/-- Under its condition an instruction of the decoder leaves what the standard says. -/
theorem runInstruction_of_standard (hinitial : Option.Rel Represents initialRow initial) (h : Tracks d e)
    {instruction : DwarfInstruction} (hok : InstructionOk f fuel cie e c instruction)
    (hrun : (standardInstruction f cie initialRow d instruction).run c = some (d', c')) :
    ∃ e', (runInstructionUnder f fuel cie initial e instruction).run c = some (e', c') ∧ Tracks d' e' := by
  cases instruction with
  | nop =>
    cases hrun
    exact ⟨e, rfl, h⟩
  | setLoc => exact setLoc_tracks fuel h hok hrun
  | advanceLoc bytes =>
    obtain ⟨v, c₁, hv, hrun⟩ := run_bind_eq_some.1 hrun
    cases hrun
    exact ⟨advanceLoc cie e v, run_bind_eq_some.2 ⟨v, _, hv, rfl⟩, ⟨h.row, h.saved⟩⟩
  | offsetExtended => exact setRule_unsigned _ (fun _ => rfl) h hok hrun
  | valOffset => exact setRule_unsigned _ (fun _ => rfl) h hok hrun
  | gnuNegativeOffsetExtended => exact setRule_unsigned (fun x => -x * cie.dataAlignFactor) (fun _ => rfl) h hok hrun
  | register => exact setRule_unsigned id (fun _ => rfl) h hok hrun
  | offsetExtendedSf => exact setRule_signed _ (fun _ => rfl) h hok hrun
  | valOffsetSf => exact setRule_signed _ (fun _ => rfl) h hok hrun
  | undefined => exact setRule_plain rfl h hok hrun
  | sameValue => exact setRule_plain rfl h hok hrun
  | restoreExtended =>
    obtain ⟨reg, c₁, hreg, hrun⟩ := run_bind_eq_some.1 hrun
    obtain ⟨hread, hlt, -⟩ := register_of_standard (P := fun _ _ => True) hok hreg
    obtain ⟨hrestore, rfl⟩ := run_liftM_eq_some.1 hrun
    obtain ⟨e', he', htracks⟩ := restoreRegister_tracks hinitial h hlt hrestore
    exact ⟨e', run_bind_eq_some.2 ⟨reg, c', hread, run_liftM_eq_some.2 ⟨he', rfl⟩⟩, htracks⟩
  | rememberState =>
    cases hrun
    exact ⟨_, rfl, ⟨h.row, .cons h.row h.saved⟩⟩
  | restoreState =>
    obtain ⟨row, saved⟩ := d
    obtain ⟨state, remembered, cfaIp⟩ := e
    cases h.saved with
    | nil => cases hrun
    | cons hrow hrest =>
      cases hrun
      exact ⟨_, rfl, ⟨hrow, hrest⟩⟩
  | defCfa =>
    obtain ⟨reg, c₁, hreg, hrun⟩ := run_bind_eq_some.1 hrun
    obtain ⟨offset, c₂, hoffset, hrun⟩ := run_bind_eq_some.1 hrun
    cases hrun
    refine ⟨_, run_bind_eq_some.2 ⟨reg, c₁, nextUleb128_of_standard hok.1 hreg, ?_⟩, defCfa_tracks h⟩
    exact run_bind_eq_some.2 ⟨offset, _, nextUleb128_of_standard (behind_of_operandsOk hok hreg) hoffset, rfl⟩
  | defCfaSf =>
    obtain ⟨reg, c₁, hreg, hrun⟩ := run_bind_eq_some.1 hrun
    obtain ⟨offset, c₂, hoffset, hrun⟩ := run_bind_eq_some.1 hrun
    cases hrun
    refine ⟨_, run_bind_eq_some.2 ⟨reg, c₁, nextUleb128_of_standard hok.1 hreg, ?_⟩, defCfa_tracks h⟩
    exact run_bind_eq_some.2 ⟨offset, _, nextSleb128_of_standard (behind_of_operandsOk hok hreg) hoffset, rfl⟩
  | defCfaRegister =>
    obtain ⟨reg, c₁, hreg, hrun⟩ := run_bind_eq_some.1 hrun
    obtain ⟨old, offset, hcfa, rfl, rfl⟩ := of_registerOffset hrun
    obtain ⟨-, -, hoffset⟩ := cfa_of_registerOffset h hcfa
    refine ⟨_, run_bind_eq_some.2 ⟨reg, _, nextUleb128_of_standard hok hreg, rfl⟩, setCfa_tracks h rfl ?_⟩
    rw [DwarfState.cfaRule, if_pos rfl, hoffset]
  | defCfaOffset =>
    obtain ⟨offset, c₁, hoffset, hrun⟩ := run_bind_eq_some.1 hrun
    obtain ⟨reg, old, hcfa, rfl, rfl⟩ := of_registerOffset hrun
    exact ⟨_, run_bind_eq_some.2 ⟨offset, _, nextUleb128_of_standard hok hoffset, rfl⟩, defCfaOffset_tracks h hcfa⟩
  | defCfaOffsetSf =>
    obtain ⟨offset, c₁, hoffset, hrun⟩ := run_bind_eq_some.1 hrun
    obtain ⟨reg, old, hcfa, rfl, rfl⟩ := of_registerOffset hrun
    exact ⟨_, run_bind_eq_some.2 ⟨offset, _, nextSleb128_of_standard hok hoffset, rfl⟩, defCfaOffset_tracks h hcfa⟩
  | defCfaExpression =>
    obtain ⟨block, c₁, hblock, hrun⟩ := run_bind_eq_some.1 hrun
    cases hrun
    obtain ⟨hskip, rfl⟩ := skipExpression_of_standard hok.2 hblock
    refine ⟨_, run_bind_eq_some.2 ⟨c, c, rfl, ?_⟩, defCfaExpression_tracks h hok.1⟩
    exact run_bind_eq_some.2 ⟨(), _, hskip, rfl⟩
  | expression =>
    obtain ⟨reg, c₁, hreg, hrun⟩ := run_bind_eq_some.1 hrun
    obtain ⟨block, c₂, hblock, hrun⟩ := run_bind_eq_some.1 hrun
    cases hrun
    obtain ⟨hread, hlt, hbehind⟩ := register_of_standard (P := fun reg c' => BlockOk f fuel
      { e.state with registers := Function.update e.state.registers reg ⟨0x10, c'.cursor⟩ } c') hok hreg
    obtain ⟨e', he', htracks⟩ := setRegister_tracks 0x10 c₁.cursor h hlt
    have hstate : e'.state =
        { e.state with registers := Function.update e.state.registers reg.toNat ⟨0x10, c₁.cursor⟩ } := by
      rw [setRegister_eq hlt] at he'
      cases he'
      rfl
    rw [← hstate] at hbehind
    obtain ⟨hskip, rfl⟩ := skipExpression_of_standard hbehind hblock
    refine ⟨e', run_bind_eq_some.2 ⟨reg, c₁, hread, ?_⟩, htracks⟩
    refine run_bind_eq_some.2 ⟨c₁, c₁, rfl, run_bind_eq_some.2 ⟨e', c₁, run_liftM_eq_some.2 ⟨he', rfl⟩, ?_⟩⟩
    exact run_bind_eq_some.2 ⟨(), _, hskip, rfl⟩
  | valExpression =>
    obtain ⟨reg, c₁, hreg, hrun⟩ := run_bind_eq_some.1 hrun
    obtain ⟨block, c₂, hblock, hrun⟩ := run_bind_eq_some.1 hrun
    cases hrun
    obtain ⟨hread, hlt, hbehind, hold⟩ := register_of_standard (P := fun reg c' => BlockOk f fuel e.state c' ∧
      (e.state.registers reg).offset = c'.cursor) hok hreg
    obtain ⟨hskip, rfl⟩ := skipExpression_of_standard hbehind hblock
    obtain ⟨e', he', htracks⟩ := setRegister_tracks 0x16 c₁.cursor h hlt
    refine ⟨e', run_bind_eq_some.2 ⟨reg, c₁, hread, run_bind_eq_some.2 ⟨(), c', hskip, ?_⟩⟩, htracks⟩
    have hget : e.state.get reg = some (e.state.registers reg.toNat) := if_pos hlt
    refine run_bind_eq_some.2 ⟨_, c', run_liftM_eq_some.2 ⟨hget, rfl⟩, run_liftM_eq_some.2 ⟨?_, rfl⟩⟩
    rw [hold, he']
  | gnuArgsSize =>
    obtain ⟨gs, c₁, hgs, hrun⟩ := run_bind_eq_some.1 hrun
    cases hrun
    obtain ⟨v, hv⟩ := (leb128_moves hgs).1
    exact ⟨e, run_bind_eq_some.2 ⟨v, _, hv, rfl⟩, h⟩
  | gnuWindowSave => cases hrun

/-- The instructions with their operand in the opcode. -/
theorem runPacked_of_standard (hinitial : Option.Rel Represents initialRow initial) (h : Tracks d e)
    {opcode op : BitVec 64} (hlt : opcode ≠ 0x40 → op.toNat < DwarfState.numRegisters)
    (huleb : opcode = 0x80 → UlebOk f c)
    (hrun : (standardPacked f cie initialRow d opcode op).run c = some (d', c')) :
    ∃ e', (runPackedUnder f cie initial e opcode op).run c = some (e', c') ∧ Tracks d' e' := by
  unfold standardPacked at hrun
  unfold runPackedUnder runPacked
  by_cases hrestore : opcode = 0xc0
  · rw [if_pos hrestore] at hrun ⊢
    obtain ⟨hrule, rfl⟩ := run_liftM_eq_some.1 hrun
    obtain ⟨e', he', htracks⟩ := restoreRegister_tracks hinitial h (hlt (by rw [hrestore]; decide)) hrule
    exact ⟨e', run_liftM_eq_some.2 ⟨he', rfl⟩, htracks⟩
  rw [if_neg hrestore] at hrun ⊢
  by_cases hadvance : opcode = 0x40
  · rw [if_pos hadvance] at hrun ⊢
    cases hrun
    exact ⟨_, rfl, ⟨h.row, h.saved⟩⟩
  rw [if_neg hadvance] at hrun ⊢
  by_cases hoffset : opcode = 0x80
  · rw [if_pos hoffset] at hrun ⊢
    obtain ⟨n, c₁, hn, hrun⟩ := run_bind_eq_some.1 hrun
    cases hrun
    obtain ⟨e', he', htracks⟩ := setRegister_tracks 0x80 (n * cie.dataAlignFactor) h (hlt hadvance)
    refine ⟨e', run_bind_eq_some.2 ⟨n, c', nextUleb128_of_standard (huleb hoffset) hn, ?_⟩, htracks⟩
    exact run_liftM_eq_some.2 ⟨he', rfl⟩
  · rw [if_neg hoffset] at hrun
    cases hrun

/-- So does a round of the loop. -/
theorem round_of_standard (hinitial : Option.Rel Represents initialRow initial) (h : Tracks d e) (stop : Address)
    (hok : FrameOk f fuel cie (d, c) (e, c))
    (hrun : (standardRound f cie initialRow d).run c = some (d', c')) :
    ∃ e', (decoderRound f fuel cie initial stop e).run c = some (e', c') ∧ Tracks d' e' := by
  obtain ⟨opcode, c₁, hopcode, hrun⟩ := run_bind_eq_some.1 hrun
  rw [FrameOk, hopcode] at hok
  dsimp only at hok hrun
  unfold decoderRound
  rw [StateT.run_bind, hopcode, Option.bind_eq_bind, Option.bind_some]
  by_cases hpacked : opcode &&& 0xc0 ≠ 0
  · rw [if_pos hpacked] at hok hrun ⊢
    exact runPacked_of_standard hinitial h hok.1 hok.2 hrun
  · rw [if_neg hpacked] at hok hrun ⊢
    cases hlookup : instructionTable.lookup opcode.toNat with
    | none =>
      rw [hlookup] at hrun
      cases hrun
    | some instruction =>
      rw [hlookup] at hok hrun
      exact runInstruction_of_standard hinitial h hok hrun

/-! ## Runs -/

theorem after_of_halted {stop : Address} {n : Nat} {s s' : DecoderState × DwarfCursor}
    (h : (decoderFrames f fuel cie initial stop).after n s = some s') (hend : ¬s.2.cursor < stop) : s' = s := by
  have hhalted : (decoderFrames f fuel cie initial stop).halted s = true := by simpa [decoderFrames] using hend
  cases n with
  | zero => simpa [Machine.after] using h.symm
  | succ n =>
    rw [Machine.after, if_pos hhalted] at h
    cases h
    rfl

/-- The loop of the decoder ends with the state in which its machine halts. -/
theorem runInstructionsUnder_of_after {stop : Address} {n rounds : Nat} (hrounds : n < rounds)
    {s s' : DecoderState × DwarfCursor} (h : (decoderFrames f fuel cie initial stop).after n s = some s')
    (hend : ¬s'.2.cursor < stop) :
    ∃ c, (runInstructionsUnder f fuel cie initial stop rounds s.1).run s.2 = some (s'.1.state, c) := by
  obtain ⟨rounds, rfl⟩ : ∃ r, rounds = r + 1 := ⟨rounds - 1, by omega⟩
  rw [runInstructionsUnder, StateT.run_bind, StateT.run_get]
  simp only [Option.pure_def, Option.bind_eq_bind, Option.bind_some]
  by_cases hs : s.2.cursor < stop
  · have hrun : (decoderFrames f fuel cie initial stop).halted s = false := by simpa [decoderFrames] using hs
    rw [if_pos hs]
    cases n with
    | zero =>
      cases h
      exact absurd hs hend
    | succ n =>
      rw [Machine.after, hrun, if_neg (by decide), Option.bind_eq_some_iff] at h
      obtain ⟨s₁, hstep, h⟩ := h
      obtain ⟨opcode, c₁, hopcode, hstep⟩ := run_bind_eq_some.1 hstep
      rw [StateT.run_bind, hopcode]
      simp only [Option.bind_eq_bind, Option.bind_some]
      by_cases hpacked : opcode &&& 0xc0 ≠ 0
      · rw [if_pos hpacked] at hstep ⊢
        obtain ⟨c, hc⟩ := runInstructionsUnder_of_after (Nat.lt_of_succ_lt_succ hrounds) h hend
        exact ⟨c, run_bind_eq_some.2 ⟨s₁.1, s₁.2, hstep, hc⟩⟩
      · rw [if_neg hpacked] at hstep ⊢
        cases hlookup : instructionTable.lookup opcode.toNat with
        | some instruction =>
          rw [hlookup] at hstep
          obtain ⟨c, hc⟩ := runInstructionsUnder_of_after (Nat.lt_of_succ_lt_succ hrounds) h hend
          exact ⟨c, run_bind_eq_some.2 ⟨s₁.1, s₁.2, hstep, hc⟩⟩
        | none =>
          -- the machine is at the end then, with the state it had
          rw [hlookup] at hstep
          cases hstep
          rw [after_of_halted h (BitVec.lt_irrefl stop)]
          exact ⟨c₁, rfl⟩
  · rw [if_neg hs, after_of_halted h hs]
    exact ⟨s.2, rfl⟩

theorem represents_empty : Represents .empty .empty := ⟨fun _ _ => rfl, fun _ h => nomatch h⟩

theorem tracks_start (hinitial : Option.Rel Represents initialRow initial) (cfaIp : BitVec 64) :
    Tracks ⟨initialRow.getD .empty, []⟩ ⟨initial.getD .empty, [], cfaIp⟩ := by
  cases hinitial with
  | none => exact ⟨represents_empty, .nil⟩
  | some h => exact ⟨h, .nil⟩

end Step

/-- From the state of a CIE, and in every run of the standard's machine whose steps all meet the condition, the
decoder has the rules of the machine's row and of its saved rows in every state, and at the end. -/
theorem callFrames_agree (f : EhFrame) (fuel : Nat) (cie : DecoderCIE) (initialRow : Option Row)
    (initial : Option DwarfState) (hinitial : Option.Rel Represents initialRow initial) (start : DwarfCursor)
    (stop : Address) (cfaIp : BitVec 64) (n : Nat)
    (hsteps : Machine.Along (standardFrames f cie initialRow stop) (decoderFrames f fuel cie initial stop)
      (FrameOk f fuel cie) n (⟨initialRow.getD .empty, []⟩, start) (⟨initial.getD .empty, [], cfaIp⟩, start)) :
    (∀ k ≤ n, ∀ d c, (standardFrames f cie initialRow stop).after k (⟨initialRow.getD .empty, []⟩, start) = some (d, c) →
      ∃ e, (decoderFrames f fuel cie initial stop).after k (⟨initial.getD .empty, [], cfaIp⟩, start) = some (e, c) ∧
        Tracks d e) ∧
    (∀ d c, (standardFrames f cie initialRow stop).after n (⟨initialRow.getD .empty, []⟩, start) = some (d, c) →
      ¬c.cursor < stop → n < fuel →
      ∃ state, parseInstructionsUnder f fuel cie initial start stop cfaIp = some state ∧ Represents d.row state) := by
  have hrun : ∀ k ≤ n, ∀ d c,
      (standardFrames f cie initialRow stop).after k (⟨initialRow.getD .empty, []⟩, start) = some (d, c) →
      ∃ e, (decoderFrames f fuel cie initial stop).after k (⟨initial.getD .empty, [], cfaIp⟩, start) = some (e, c) ∧
        Tracks d e := by
    intro k hk d c hd
    let R : FrameState × DwarfCursor → DecoderState × DwarfCursor → Prop := fun s t => Tracks s.1 t.1 ∧ t.2 = s.2
    have hstart : R (⟨initialRow.getD .empty, []⟩, start) (⟨initial.getD .empty, [], cfaIp⟩, start) :=
      ⟨tracks_start hinitial cfaIp, rfl⟩
    have hhalted : ∀ s t, R s t → (decoderFrames f fuel cie initial stop).halted t =
        (standardFrames f cie initialRow stop).halted s := by
      intro s t hst
      simp only [decoderFrames, standardFrames, hst.2]
    have hstep : ∀ s t s', R s t → FrameOk f fuel cie s t → (standardFrames f cie initialRow stop).halted s = false →
        (standardFrames f cie initialRow stop).step s = some s' →
        ∃ t', (decoderFrames f fuel cie initial stop).step t = some t' ∧ R s' t' := by
      rintro ⟨d, c⟩ ⟨e, c'⟩ s' ⟨htracks, hcursor⟩ hok - hs'
      cases hcursor
      obtain ⟨e', he', htracks'⟩ := round_of_standard hinitial htracks stop hok hs'
      exact ⟨(e', s'.2), he', htracks', rfl⟩
    obtain ⟨⟨e, c'⟩, he, htracks, hcursor⟩ := Machine.simulates hhalted hstep hstart (hsteps.mono hk) hd
    cases hcursor
    exact ⟨e, he, htracks⟩
  refine ⟨hrun, fun d c hd hend hfuel => ?_⟩
  obtain ⟨e, he, htracks⟩ := hrun n le_rfl d c hd
  obtain ⟨c', hparse⟩ := runInstructionsUnder_of_after hfuel he hend
  exact ⟨e.state, Option.bind_eq_some_iff.2 ⟨(e.state, c'), hparse, rfl⟩, htracks.row⟩

def smallCIE : DecoderCIE := ⟨1, -8, none⟩

/-- Remember the row, keep rbp, restore rbp, and restore the row. -/
def nestedFrame : EhFrame := ⟨0x1000, 0x1000, [0x0a, 0x08, 0x06, 0xc6, 0x0b], by decide⟩

theorem nestedFrame_agrees : ∃ state,
    parseInstructionsUnder nestedFrame 5 smallCIE (some .empty) (.at 0x1000) 0x1005 0 = some state ∧
      Represents .empty state := by
  refine (callFrames_agree nestedFrame 5 smallCIE (some .empty) (some .empty) (.some represents_empty)
    (.at 0x1000) 0x1005 0 4 ?_).2 ⟨.empty, []⟩ ⟨0x1000, 0x1005⟩ rfl (by decide) (by decide)
  refine fun _ => ⟨trivial, fun s t hs ht => ?_⟩
  cases hs
  cases ht
  refine fun _ => ⟨?_, fun s t hs ht => ?_⟩
  · intro gs c' h
    cases h
    decide
  cases hs
  cases ht
  refine fun _ => ⟨⟨fun _ => by decide, fun h => absurd h (by decide)⟩, fun s t hs ht => ?_⟩
  cases hs
  cases ht
  exact fun _ => ⟨trivial, fun _ _ _ _ => trivial⟩

/-- The value of rbp is an expression, `DW_OP_lit5`. -/
def valueFrame : EhFrame := ⟨0x1000, 0x1000, [0x16, 0x06, 0x01, 0x35], by decide⟩

/-- The decoder keeps the old offset of the register in place of the expression. -/
theorem valExpression_lost :
    ((standardFrames valueFrame smallCIE none 0x1004).after 1 (⟨.empty, []⟩, .at 0x1000)).map
        (fun s => (s.1.row.rules 6, s.2.cursor)) = some (.valExpression 0x1002, 0x1004) ∧
      (parseInstructionsUnder valueFrame 3 smallCIE none (.at 0x1000) 0x1004 0).map (fun s => (s.registers 6).rule) =
        some (.valExpression 0) := by
  decide +kernel

end Egalito.Dwarf
