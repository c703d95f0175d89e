import Egalito.Pass.UseGSTableCode
/-!
# The runs of the new instructions

What each new instruction does, and from that what the instructions do that
stand for a call or a jump, in any layout of the function.
-/

namespace Egalito.UseGSTable

open Lib X86 Retpoline Chunk

variable {χ I : Type} {originalSize : Semantic χ I → Nat} {code rest A B : List (Instruction χ I)} {base : Word} {m : Machine}
  {p q n : Nat} {offset lo : UInt32} {o : IndirectOperand} {link : NewLink}

attribute [local simp] run emit

/-! ## Single instructions -/

theorem word32_displacementBytes (d : BitVec 32) : word32 ⟨d.extractLsb' 0 8⟩ ⟨d.extractLsb' 8 8⟩ ⟨d.extractLsb' 16 8⟩
    ⟨d.extractLsb' 24 8⟩ = d := by
  unfold word32
  refine BitVec.eq_of_getLsbD_eq fun i hi => ?_
  simp only [BitVec.getLsbD_append, BitVec.getLsbD_extractLsb']
  split_ifs <;> simp <;> grind

theorem run_push1 : run originalSize code base ((p, push1 offset) :: rest) m =
    run originalSize code base rest { m with toMachine := m.pushWord (offset.toBitVec.signExtend 64) } := by
  have hdecode : decodeInserted (0x68 :: displacementBytes offset.toBitVec) = some (.pushImm (offset.toBitVec.signExtend 64)) := by
    rw [← imm32_displacementBytes]
    rfl
  simp [run, push1, emit, hdecode]

theorem run_movRA : run originalSize code base ((p, movRA q) :: rest) m = run originalSize code base rest
    { m with mem := writeWord (n := 4) m.mem (m.regs rsp + 4) (BitVec.ofNat 32 (distance originalSize code q)) } := by
  have hdecode : ∀ d : BitVec 32, decodeInserted (0xc7 :: 0x44 :: 0x24 :: 0x04 :: displacementBytes d) =
      some (.storeLong 4 d) := by
    intro d
    refine Eq.trans ?_ (congrArg (fun d => some (Op.storeLong 4 d)) (word32_displacementBytes d))
    rfl
  simp [run, movRA, emit, displacement, hdecode]

theorem run_movLinked (d : UInt8) : run originalSize code base ((p, movLinked d link) :: rest) m = run originalSize code base rest
    { m with toMachine := m.set r11 (m.mem.load (address originalSize code base rest +
      (displacement originalSize code (address originalSize code base rest) link).signExtend 64)) } := by
  have hdecode : ∀ d : BitVec 32, decodeInserted (0x4c :: 0x8b :: 0x1d :: displacementBytes d) =
      some (.loadRelative (d.signExtend 64)) := by
    intro d
    rw [← imm32_displacementBytes]
    rfl
  simp [run, movLinked, emit, hdecode]

theorem run_moveOffset : run originalSize code base ((p, moveOffset) :: rest) m =
    run originalSize code base rest { m with mm1 := m.regs r11 } := by
  have hdecode : decodeInserted [0x49, 0x0f, 0x6e, 0xcb] = some .moveToMm1 := rfl
  simp [run, moveOffset, emit, hdecode]

theorem run_jumpSlotR11 : run originalSize code base ((p, jumpSlotR11) :: rest) m = some (.slot (m.regs r11) m) := by
  have hdecode : decodeInserted [0x65, 0x41, 0xff, 0x23] = some .jumpSlotR11 := rfl
  simp [run, jumpSlotR11, emit, hdecode]

theorem emit_jumpSlot : emit originalSize code base rest (jumpSlot offset) =
    some ([0x65, 0xff, 0x24, 0x25] ++ displacementBytes offset.toBitVec) := rfl

theorem run_jumpSlot : run originalSize code base ((p, jumpSlot offset) :: rest) m =
    some (.slot (offset.toBitVec.signExtend 64) m) := by
  have hdecode : decodeInserted (0x65 :: 0xff :: 0x24 :: 0x25 :: displacementBytes offset.toBitVec) =
      some (.jumpSlot (offset.toBitVec.signExtend 64)) := by
    rw [← imm32_displacementBytes]
    rfl
  rw [jumpSlot]
  simp [run, emit, displacement, hdecode]

/-- The move in front of the jump reads the offset in it. -/
theorem run_loadOffset : run originalSize code base ((p, loadOffset) :: (q, jumpSlot offset) :: rest) m =
    run originalSize code base ((q, jumpSlot offset) :: rest) { m with mm1 := offset.toBitVec.setWidth 64 } := by
  have hdecode : decodeInserted [0x0f, 0x6e, 0x0d, 0x04, 0, 0, 0] = some (.loadMm1 4) := rfl
  have hread : readCode originalSize code base 4#64 ((q, jumpSlot offset) :: rest) = some offset.toBitVec := by
    rw [readCode, emit_jumpSlot]
    refine Eq.trans ?_ (congrArg some (word32_displacementBytes offset.toBitVec))
    rfl
  conv_lhs => unfold loadOffset
  rw [run]
  · simp [emit, hdecode, hread]
  · intro c target h
    cases h

/-! ## The move of an operand -/

set_option linter.auxLemma false in
theorem decodeInserted_of_ne {a b c : UInt8} {bytes : List UInt8} (ha : a ≠ 0x68 ∧ a ≠ 0xc7 ∧ a ≠ 0x0f ∧ a ≠ 0x65)
    (hb : b ≠ 0x0f) (hc : c ≠ 0x1d) : decodeInserted (a :: b :: c :: bytes) = (decode (a :: b :: c :: bytes)).map .plain := by
  obtain ⟨h68, hc7, h0f, h65⟩ := ha
  -- the tests on the first bytes, in the order of the alternatives
  unfold decodeInserted decodeInserted.match_1
  refine (dif_neg h68).trans ?_
  refine (dif_neg hc7).trans ?_
  by_cases h4c : a = 0x4c
  · subst h4c
    refine (dif_pos rfl).trans ?_
    by_cases h8b : b = 0x8b
    · subst h8b
      refine (dif_pos rfl).trans ?_
      exact dif_neg hc
    · exact dif_neg h8b
  · refine (dif_neg h4c).trans ?_
    by_cases h49 : a = 0x49
    · subst h49
      refine (dif_pos rfl).trans ?_
      exact dif_neg hb
    · refine (dif_neg h49).trans ?_
      refine (dif_neg h0f).trans ?_
      exact dif_neg h65

theorem movBytes_head (o : IndirectOperand) : ∃ a b c bytes, movBytes o = a :: b :: c :: bytes ∧
    (a ≠ 0x68 ∧ a ≠ 0xc7 ∧ a ≠ 0x0f ∧ a ≠ 0x65) ∧ b ≠ 0x0f ∧ c ≠ 0x1d := by
  have hrex : ∀ reg indexReg, rexByte reg indexReg ≠ 0x68 ∧ rexByte reg indexReg ≠ 0xc7 ∧ rexByte reg indexReg ≠ 0x0f ∧
      rexByte reg indexReg ≠ 0x65 := by
    intro reg indexReg
    unfold rexByte
    dsimp only
    split_ifs <;> decide
  cases o with
  | reg r =>
    refine ⟨_, _, _, [], rfl, ?_⟩
    revert r
    decide
  | mem o =>
    rw [movBytes]
    split_ifs
    · have hbase : ∀ b : Option Register, UInt8.ofInt (0x98 + convertToPhysical b - 8) ≠ 0x1d ∧
          UInt8.ofInt (0x98 + convertToPhysical b) ≠ 0x1d := by decide
      unfold baseCode
      split_ifs
      · exact ⟨_, _, _, _, rfl, hrex _ _, by decide, (hbase o.base).1⟩
      · exact ⟨_, _, _, _, rfl, hrex _ _, by decide, (hbase o.base).1⟩
      · exact ⟨_, _, _, _, rfl, hrex _ _, by decide, (hbase o.base).2⟩
      · exact ⟨_, _, _, _, rfl, hrex _ _, by decide, (hbase o.base).2⟩
    · exact ⟨_, _, _, _, rfl, hrex _ _, by decide, by decide⟩

theorem run_movEA : run originalSize code base ((p, movEA o) :: rest) m =
    run originalSize code base rest { m with toMachine := (firstInstr o).exec m.toMachine } := by
  obtain ⟨a, b, c, bytes, hbytes, ha, hb, hc⟩ := movBytes_head o
  have hdecode : decode (movBytes o) = some (firstInstr o) := by
    cases o with
    | reg r => exact decode_movBytes_reg r
    | mem o => exact decode_movBytes_mem o
  rw [hbytes] at hdecode
  simp [run, movEA, emit, hbytes, decodeInserted_of_ne ha hb hc, hdecode]

/-! ## What is pushed -/

theorem append_extractLsb' (hi lo : BitVec 32) (i : Nat) : (hi ++ lo).extractLsb' (8 * i) 8 =
    if i < 4 then lo.extractLsb' (8 * i) 8 else hi.extractLsb' (8 * (i - 4)) 8 := by
  refine BitVec.eq_of_getLsbD_eq fun j hj => ?_
  rw [BitVec.getLsbD_extractLsb', BitVec.getLsbD_append]
  split_ifs with h₁ h₂ h₂
  · rw [BitVec.getLsbD_extractLsb']
  · omega
  · omega
  · rw [BitVec.getLsbD_extractLsb', show 8 * i + j - 32 = 8 * (i - 4) + j by omega]

/-- The upper half of the word that was pushed is replaced. -/
theorem store_upper (mem : Memory) (a : Word) (hi lo : BitVec 32) :
    writeWord (n := 4) (mem.store a (lo.signExtend 64)) (a + 4) hi = mem.store a (hi ++ lo : BitVec 64) := by
  funext x
  have hstore : ∀ v : Word, mem.store a v x = if (x - a).toNat < 8 then v.extractLsb' (8 * (x - a).toNat) 8 else mem x :=
    fun _ => rfl
  have hwrite : writeWord (n := 4) (mem.store a (lo.signExtend 64)) (a + 4) hi x =
      if (x - (a + 4)).toNat < 4 then hi.extractLsb' (8 * (x - (a + 4)).toNat) 8 else mem.store a (lo.signExtend 64) x := rfl
  have hnext : (x - (a + 4)).toNat < 4 ↔ 4 ≤ (x - a).toNat ∧ (x - a).toNat < 8 := by bv_omega
  have hoffset : 4 ≤ (x - a).toNat → (x - (a + 4)).toNat = (x - a).toNat - 4 := by bv_omega
  rw [hwrite, hstore, hstore, append_extractLsb']
  by_cases h₄ : 4 ≤ (x - a).toNat
  · rw [if_neg (not_lt.2 h₄), hoffset h₄]
    by_cases h₈ : (x - a).toNat < 8
    · rw [if_pos (by omega), if_pos h₈]
    · rw [if_neg (by omega), if_neg h₈, if_neg h₈]
  · have hlow : (lo.signExtend 64).extractLsb' (8 * (x - a).toNat) 8 = lo.extractLsb' (8 * (x - a).toNat) 8 := by
      refine BitVec.eq_of_getLsbD_eq fun j hj => ?_
      rw [BitVec.getLsbD_extractLsb', BitVec.getLsbD_extractLsb', BitVec.getLsbD_signExtend, if_pos (by omega)]
      simp only [hj, decide_true, Bool.true_and, Bool.and_eq_right_iff_imp, decide_eq_true_eq]
      omega
    rw [if_neg fun h => h₄ (hnext.1 h).1, hlow, if_pos (not_le.1 h₄)]

/-- What the first two instructions for a call do. -/
theorem run_pushed : run originalSize code base ((p, push1 lo) :: (q, movRA n) :: rest) m = run originalSize code base rest
    { m with toMachine := m.pushWord (BitVec.ofNat 32 (distance originalSize code n) ++ lo.toBitVec : BitVec 64) } := by
  rw [run_push1, run_movRA]
  have hrsp : ∀ v : Word, (m.pushWord v).regs rsp = m.regs rsp - 8 := fun _ => Machine.pushWord_rsp
  have hstore := store_upper m.mem (m.regs rsp - 8) (BitVec.ofNat 32 (distance originalSize code n)) lo.toBitVec
  dsimp only
  rw [hrsp]
  change run originalSize code base rest ⟨⟨_, writeWord (n := 4) (m.mem.store (m.regs rsp - 8) _) _ _, _⟩, _⟩ = _
  rw [hstore]
  rfl

/-! ## What stands for a call or a jump -/

section Rewritten

variable [DecidableEq χ] (table : GSTable χ) (caller : χ)

/-- The object with the jump is the first new one. -/
def sequence (n p : Nat) (first : Semantic χ I) (rest : List (Semantic χ I)) (jump : Semantic χ I) : List (Instruction χ I) :=
  (p, first) :: ((List.range' (n + 1) rest.length).zip rest ++ [(n, jump)])

/-- The link of the move from memory for a jump. -/
def DataLink.jumpLink (link : DataLink χ) : NewLink :=
  match link.normal with
  | some target => .gsTable (slotOffset table target)
  | none => .data link.address link.isRIPRelative

/-- `next` is where a conditional jump goes if its condition does not hold. -/
def rewritten (n p next : Nat) : Transfer χ → List (Instruction χ I)
  | .call (.entry target) =>
    sequence n p (push1 (slotOffset table caller)) [movRA n, loadOffset] (jumpSlot (slotOffset table target))
  | .call (.operand o) => sequence n p (push1 (slotOffset table caller)) [movRA n, movEA o, moveOffset] jumpSlotR11
  | .call (.data link) => sequence n p (push1 (slotOffset table caller))
      [movRA n, movLinked 0 (.data link.address link.isRIPRelative), moveOffset] jumpSlotR11
  | .jump (.entry target) => sequence n p loadOffset [] (jumpSlot (slotOffset table target))
  | .jump (.operand o) => sequence n p (movEA o) [moveOffset] jumpSlotR11
  | .jump (.data link) => sequence n p (movLinked 0x34 (link.jumpLink table)) [moveOffset] jumpSlotR11
  | .conditionalJump c target =>
    [(p, .conditionalJump c.opposite next), (n, loadOffset), (n + 1, jumpSlot (slotOffset table target))]

/-- The place of these instructions in the code. -/
structure Placed (code A B : List (Instruction χ I)) (n p next : Nat) (t : Transfer χ) : Prop where
  code_eq : code = A ++ (rewritten table caller n p next t ++ B)
  nodup : (code.map (·.1)).Nodup
  next : ∀ c target, t = .conditionalJump c target → behind code next = B

variable {table caller} {t : Transfer χ} {next : Nat} {m' : Machine} {v w : Word} {pos : List (Instruction χ I)}

/-! ## Addresses -/

omit [DecidableEq χ] in
theorem sizeOf_append : sizeOf originalSize (A ++ B) = sizeOf originalSize A + sizeOf originalSize B := by
  simp [sizeOf]

omit [DecidableEq χ] in
theorem address_append (hcode : code = A ++ pos) :
    address originalSize code base pos = base + BitVec.ofNat 64 (sizeOf originalSize A) := by
  rw [address, hcode, sizeOf_append, Nat.add_sub_cancel]

omit [DecidableEq χ] in
/-- The distance to the last instruction of a part. -/
theorem distance_append {s : Semantic χ I} (hcode : code = A ++ (n, s) :: B) (hnodup : (code.map (·.1)).Nodup) :
    distance originalSize code n = sizeOf originalSize (A ++ [(n, s)]) := by
  have hA : ∀ y ∈ A, y.1 ≠ n := by
    rintro y hy rfl
    rw [hcode, List.map_append, List.nodup_append] at hnodup
    exact hnodup.2.2 y.1 (List.mem_map_of_mem hy) y.1 (by simp) rfl
  have htake : code.takeWhile (·.1 ≠ n) = A := by
    rw [hcode, List.takeWhile_append_of_pos (by simpa using hA), List.takeWhile_cons_of_neg (by simp), List.append_nil]
  have hfind : code.find? (·.1 = n) = some (n, s) := by
    rw [hcode, List.find?_append, List.find?_eq_none.2 (by simpa using hA), List.find?_cons_of_pos (by simp)]
    rfl
  rw [distance, htake, hfind, sizeOf_append]
  rfl

/-- The word that the instructions for a call push. -/
theorem returnWord_eq {s : Semantic χ I} (hcode : code = A ++ (n, s) :: B) (hnodup : (code.map (·.1)).Nodup) :
    (BitVec.ofNat 32 (distance originalSize code n) ++ (slotOffset table caller).toBitVec : BitVec 64) =
      returnWord table caller originalSize code base B := by
  have hafter : code = (A ++ [(n, s)]) ++ B := by simp [hcode]
  have hcut : ∀ k, (BitVec.ofNat 64 k).setWidth 32 = BitVec.ofNat 32 k := by
    intro k
    refine BitVec.eq_of_toNat_eq ?_
    simp only [BitVec.toNat_setWidth, BitVec.toNat_ofNat]
    omega
  have hdiff : base + BitVec.ofNat 64 (sizeOf originalSize (A ++ [(n, s)])) - base =
      BitVec.ofNat 64 (sizeOf originalSize (A ++ [(n, s)])) := by ring
  rw [returnWord, address_append hafter, hdiff, hcut, distance_append hcode hnodup]

/-! ## What they do -/

theorem does_slot_iff (hcond : t.condition.all (·.holds m.flags) = true) : Does table t w B m (some (.slot v m')) ↔
    v = t.source.value table m.toMachine ∧ m'.mm1 = t.source.value table m.toMachine ∧ Kept t w m m' := by
  rw [Does, if_pos hcond]
  constructor
  · rintro ⟨m'', h, hmm1, hkept⟩
    cases h
    exact ⟨rfl, hmm1, hkept⟩
  · rintro ⟨rfl, hmm1, hkept⟩
    exact ⟨m', rfl, hmm1, hkept⟩

/-- An offset of a slot is extended with its sign in the jump. -/
theorem signExtend_eq_iff (offset : BitVec 32) : offset.signExtend 64 = offset.setWidth 64 ↔ offset.toNat < 2 ^ 31 := by
  rw [← BitVec.toInt_inj, BitVec.toInt_signExtend_of_le (by norm_num), BitVec.toInt_setWidth, BitVec.toInt_eq_toNat_cond]
  have := offset.isLt
  split_ifs <;> simp only [Int.bmod] <;> omega

omit [DecidableEq χ] in
theorem kept_pushed (source : Source χ) : Kept (.call source) w m ⟨m.pushWord w, v⟩ :=
  ⟨rfl, fun _ h _ => Machine.pushWord_regs h, Machine.pushWord_rsp, rfl⟩

omit [DecidableEq χ] in
theorem kept_refl (ht : t.isCall = false) : Kept t w m ⟨m.toMachine, v⟩ :=
  ⟨rfl, fun _ _ _ => rfl, by rw [ht]; rfl, by rw [ht]; rfl⟩

omit [DecidableEq χ] in
theorem Kept.set {r : Word} (h : Kept t w m m') : Kept t w m ⟨m'.toMachine.set r11 r, v⟩ :=
  ⟨h.flags, fun r' hrsp hr11 => (Machine.set_regs_of_ne hr11).trans (h.regs r' hrsp hr11),
    (Machine.set_regs_of_ne (by decide)).trans h.rsp, h.mem⟩

omit [DecidableEq χ] in
/-- A move to the register keeps what was kept before it. -/
theorem Kept.firstInstr (h : Kept t w m m') (hsome : ∀ src, o = .mem src → src.base ≠ none ∨ src.index ≠ none) :
    Kept t w m ⟨(firstInstr o).exec m'.toMachine, v⟩ := by
  obtain ⟨r, hr⟩ := firstInstr_exec hsome m'.toMachine
  rw [hr]
  exact h.set

omit [DecidableEq χ] in
theorem address_move (hcode : code = A ++ (q, moveOffset) :: (n, jumpSlotR11) :: B) :
    address originalSize code base ((q, moveOffset) :: (n, jumpSlotR11) :: B) = address originalSize code base B - 8 := by
  have hafter : code = (A ++ [(q, moveOffset), (n, jumpSlotR11)]) ++ B := by simp [hcode]
  rw [address_append hcode, address_append hafter, sizeOf_append]
  change _ = base + BitVec.ofNat 64 (sizeOf originalSize A + 8) - 8
  rw [BitVec.ofNat_add, show BitVec.ofNat 64 8 = (8 : Word) from rfl]
  ring

section Cases

variable {target : χ} {dataLink : DataLink χ} {regs : Register → Word}

theorem call_entry_iff (h : Placed table caller code A B n p next (.call (.entry target))) :
    Does table (.call (.entry target)) (returnWord table caller originalSize code base B) B m
      (run originalSize code base (rewritten table caller n p next (.call (.entry target)) ++ B) m) ↔
    (slotOffset table target).toNat < 2 ^ 31 := by
  have hcode : code = (A ++ [(p, push1 (slotOffset table caller)), (n + 1, movRA n), (n + 2, loadOffset)]) ++
      (n, jumpSlot (slotOffset table target)) :: B := by
    rw [h.code_eq, List.append_assoc]
    rfl
  change Does _ _ _ _ _ (run _ _ _ ((p, push1 _) :: (n + 1, movRA n) :: (n + 2, loadOffset) :: (n, jumpSlot _) :: B) m) ↔ _
  rw [run_pushed, run_loadOffset, run_jumpSlot, returnWord_eq hcode h.nodup, does_slot_iff rfl]
  constructor
  · exact fun h => (signExtend_eq_iff _).1 h.1
  · exact fun h => ⟨(signExtend_eq_iff _).2 h, rfl, kept_pushed _⟩

theorem jump_entry_iff : Does table (.jump (.entry target)) w B m
      (run originalSize code base (rewritten table caller n p next (.jump (.entry target)) ++ B) m) ↔
    (slotOffset table target).toNat < 2 ^ 31 := by
  change Does _ _ _ _ _ (run _ _ _ ((p, loadOffset) :: (n, jumpSlot _) :: B) m) ↔ _
  rw [run_loadOffset, run_jumpSlot, does_slot_iff rfl]
  constructor
  · exact fun h => (signExtend_eq_iff _).1 h.1
  · exact fun h => ⟨(signExtend_eq_iff _).2 h, rfl, kept_refl rfl⟩

theorem exists_holds (c : Condition) : ∃ flags, c.holds flags = true := by
  cases c
  all_goals first | exact ⟨Flags.ofWord 0, rfl⟩ | exact ⟨Flags.ofWord 0xfff, rfl⟩ | exact ⟨Flags.ofWord 0x80, rfl⟩

theorem conditionalJump_iff {c : Condition} (h : Placed table caller code A B n p next (.conditionalJump c target)) :
    (∀ mem flags mm1, Does table (.conditionalJump c target) w B ⟨⟨regs, mem, flags⟩, mm1⟩
      (run originalSize code base (rewritten table caller n p next (.conditionalJump c target) ++ B)
        ⟨⟨regs, mem, flags⟩, mm1⟩)) ↔
    (slotOffset table target).toNat < 2 ^ 31 := by
  have hrun : ∀ m : Machine, run originalSize code base (rewritten table caller n p next (.conditionalJump c target) ++ B) m =
      if c.holds m.flags then some (.slot ((slotOffset table target).toBitVec.signExtend 64)
        { m with mm1 := (slotOffset table target).toBitVec.setWidth 64 }) else some (.stays B m) := by
    intro m
    change run _ _ _ ((p, .conditionalJump c.opposite next) :: (n, loadOffset) :: (n + 1, jumpSlot _) :: B) m = _
    rw [run, run_loadOffset, run_jumpSlot, opposite_holds, h.next c target rfl]
    cases c.holds m.flags <;> rfl
  constructor
  · intro hdoes
    obtain ⟨flags, hflags⟩ := exists_holds c
    have hd := hdoes (fun _ => 0) flags 0
    rw [hrun, if_pos hflags, does_slot_iff (t := .conditionalJump c target) (m := ⟨⟨_, _, flags⟩, _⟩) hflags] at hd
    exact (signExtend_eq_iff _).1 hd.1
  · intro hlt mem flags mm1
    rw [hrun]
    by_cases hflags : c.holds flags = true
    · rw [if_pos hflags, does_slot_iff (t := .conditionalJump c target) (m := ⟨⟨_, _, flags⟩, _⟩) hflags]
      exact ⟨(signExtend_eq_iff _).2 hlt, rfl, kept_refl rfl⟩
    · rw [if_neg hflags, Does, if_neg]
      exact hflags

theorem call_operand_iff (h : Placed table caller code A B n p next (.call (.operand o))) :
    (∀ mem flags mm1, Does table (.call (.operand o)) (returnWord table caller originalSize code base B) B
      ⟨⟨regs, mem, flags⟩, mm1⟩ (run originalSize code base (rewritten table caller n p next (.call (.operand o)) ++ B)
        ⟨⟨regs, mem, flags⟩, mm1⟩)) ↔ Retpoline.Right .jump regs o := by
  have hcode : code = (A ++ [(p, push1 (slotOffset table caller)), (n + 1, movRA n), (n + 2, movEA o), (n + 3, moveOffset)]) ++
      (n, jumpSlotR11) :: B := by
    rw [h.code_eq, List.append_assoc]
    rfl
  have hrun : ∀ m : Machine, run originalSize code base (rewritten table caller n p next (.call (.operand o)) ++ B) m =
      some (.slot (((firstInstr o).exec (m.pushWord (returnWord table caller originalSize code base B))).regs r11)
        ⟨(firstInstr o).exec (m.pushWord (returnWord table caller originalSize code base B)),
          ((firstInstr o).exec (m.pushWord (returnWord table caller originalSize code base B))).regs r11⟩) := by
    intro m
    change run _ _ _ ((p, push1 _) :: (n + 1, movRA n) :: (n + 2, movEA o) :: (n + 3, moveOffset) :: (n, jumpSlotR11) :: B) m = _
    rw [run_pushed, run_movEA, run_moveOffset, run_jumpSlotR11, returnWord_eq hcode h.nodup]
  simp only [hrun, does_slot_iff (show (Transfer.call (Source.operand o)).condition.all _ = true from rfl)]
  constructor
  · exact fun hdoes => (operand_right_iff 0 _).1 fun mem flags => (hdoes mem flags 0).1
  · intro hright mem flags mm1
    have hvalue := (operand_right_iff 0 (returnWord table caller originalSize code base B)).2 hright mem flags
    refine ⟨hvalue, hvalue, (kept_pushed (v := mm1) _).firstInstr ?_⟩
    rintro src rfl
    exact hright.1

theorem jump_operand_iff : (∀ mem flags mm1, Does table (.jump (.operand o)) w B ⟨⟨regs, mem, flags⟩, mm1⟩
      (run originalSize code base (rewritten table caller n p next (.jump (.operand o)) ++ B) ⟨⟨regs, mem, flags⟩, mm1⟩)) ↔
    EndbrEnforce.Right regs o := by
  have hrun : ∀ m : Machine, run originalSize code base (rewritten table caller n p next (.jump (.operand o)) ++ B) m =
      some (.slot (((firstInstr o).exec m.toMachine).regs r11)
        ⟨(firstInstr o).exec m.toMachine, ((firstInstr o).exec m.toMachine).regs r11⟩) := by
    intro m
    change run _ _ _ ((p, movEA o) :: (n + 1, moveOffset) :: (n, jumpSlotR11) :: B) m = _
    rw [run_movEA, run_moveOffset, run_jumpSlotR11]
  simp only [hrun, does_slot_iff (show (Transfer.jump (Source.operand o)).condition.all _ = true from rfl)]
  constructor
  · exact fun hdoes => EndbrEnforce.right_of_loads fun mem _ => (hdoes mem _ 0).1
  · intro hright mem flags mm1
    have hvalue := @EndbrEnforce.loads_of_right ⟨regs, mem, flags⟩ o hright
    refine ⟨hvalue, hvalue, (kept_refl (v := mm1) rfl).firstInstr ?_⟩
    rintro src rfl
    exact hright.1

/-- The word that a move loads from memory, where a call may have pushed one before. -/
theorem load_iff (t : Transfer χ) (w a b : Word) : (∀ mem : Memory,
      (if t.isCall then mem.store (regs rsp - 8) w else mem).load b = mem.load a) ↔
    b = a ∧ (t.isCall → Apart 8 8 (regs rsp - 8) a) := by
  have hoverlay : (∀ mem : Memory, readWord 8 (if t.isCall then mem.store (regs rsp - 8) w else mem) b = readWord 8 mem a) ↔
      b = a ∧ ∀ i < 8, ¬ (t.isCall ∧ (a + BitVec.ofNat 64 i - (regs rsp - 8)).toNat < 8) :=
    readWord_overlay_iff (R := fun x => t.isCall ∧ (x - (regs rsp - 8)).toNat < 8)
      (F := fun mem => if t.isCall then Memory.store mem (regs rsp - 8) w else mem) (by norm_num) (by norm_num)
      (fun mem x hx => ?_) (fun mem mem' x hx => ?_)
  · refine hoverlay.trans (and_congr_right fun _ => ⟨fun h hcall i hi => not_lt.1 fun hlt => h i hi ⟨hcall, hlt⟩, ?_⟩)
    rintro h i hi ⟨hcall, hlt⟩
    exact not_lt.2 (h hcall i hi) hlt
  · by_cases hcall : t.isCall
    · simp only [hcall, true_and, not_lt] at hx
      simp only [hcall, if_true]
      exact writeWord_of_le (n := 8) hx
    · simp only [hcall, if_false, Bool.false_eq_true]
  · simp only [hx.1, if_true]
    exact (writeWord_of_lt (n := 8) hx.2).trans (writeWord_of_lt (n := 8) hx.2).symm

theorem call_data_iff (h : Placed table caller code A B n p next (.call (.data dataLink))) :
    (∀ mem flags mm1, Does table (.call (.data dataLink)) (returnWord table caller originalSize code base B) B
      ⟨⟨regs, mem, flags⟩, mm1⟩ (run originalSize code base (rewritten table caller n p next (.call (.data dataLink)) ++ B)
        ⟨⟨regs, mem, flags⟩, mm1⟩)) ↔
    Right table regs (address originalSize code base B - 8) (.call (.data dataLink)) := by
  have hmove : code = (A ++ [(p, push1 (slotOffset table caller)), (n + 1, movRA n),
      (n + 2, movLinked 0 (.data dataLink.address dataLink.isRIPRelative))]) ++ (n + 3, moveOffset) :: (n, jumpSlotR11) :: B := by
    rw [h.code_eq, List.append_assoc]
    rfl
  have hcode : code = (A ++ [(p, push1 (slotOffset table caller)), (n + 1, movRA n),
      (n + 2, movLinked 0 (.data dataLink.address dataLink.isRIPRelative)), (n + 3, moveOffset)]) ++ (n, jumpSlotR11) :: B := by
    rw [h.code_eq, List.append_assoc]
    rfl
  set w := returnWord table caller originalSize code base B with hw
  set source := address originalSize code base B - 8 +
    (dataLink.displacement table true (address originalSize code base B - 8)).signExtend 64 with hsource
  have hrun : ∀ m : Machine, run originalSize code base (rewritten table caller n p next (.call (.data dataLink)) ++ B) m =
      some (.slot ((m.mem.store (m.regs rsp - 8) w).load source)
        ⟨(m.pushWord w).set r11 ((m.mem.store (m.regs rsp - 8) w).load source), (m.mem.store (m.regs rsp - 8) w).load source⟩) := by
    intro m
    change run _ _ _ ((p, push1 _) :: (n + 1, movRA n) :: (n + 2, movLinked 0 _) :: (n + 3, moveOffset) ::
      (n, jumpSlotR11) :: B) m = _
    rw [run_pushed, run_movLinked, run_moveOffset, run_jumpSlotR11, returnWord_eq hcode h.nodup, address_move hmove]
    dsimp only
    rw [Machine.set_regs_self]
    rfl
  simp only [hrun, does_slot_iff (show (Transfer.call (Source.data dataLink)).condition.all _ = true from rfl)]
  refine Iff.trans ⟨fun hdoes mem => (hdoes mem (Flags.ofWord 0) 0).1, fun hdoes mem flags mm1 => ?_⟩
    (load_iff (.call (.data dataLink)) w dataLink.address source)
  exact ⟨hdoes mem, hdoes mem, (kept_pushed (v := mm1) _).set⟩

theorem displacement_jumpLink (a : Word) : displacement originalSize code a (dataLink.jumpLink table) =
    dataLink.displacement table false a := by
  unfold DataLink.jumpLink DataLink.displacement
  cases dataLink.normal <;> rfl

theorem jump_data_iff (h : Placed table caller code A B n p next (.jump (.data dataLink))) :
    (∀ mem flags mm1, Does table (.jump (.data dataLink)) w B ⟨⟨regs, mem, flags⟩, mm1⟩
      (run originalSize code base (rewritten table caller n p next (.jump (.data dataLink)) ++ B) ⟨⟨regs, mem, flags⟩, mm1⟩)) ↔
    Right table regs (address originalSize code base B - 8) (.jump (.data dataLink)) := by
  have hmove : code = (A ++ [(p, movLinked 0x34 (dataLink.jumpLink table))]) ++ (n + 1, moveOffset) :: (n, jumpSlotR11) :: B := by
    rw [h.code_eq, List.append_assoc]
    rfl
  set source := address originalSize code base B - 8 +
    (dataLink.displacement table false (address originalSize code base B - 8)).signExtend 64 with hsource
  have hrun : ∀ m : Machine, run originalSize code base (rewritten table caller n p next (.jump (.data dataLink)) ++ B) m =
      some (.slot (m.mem.load source) ⟨m.set r11 (m.mem.load source), m.mem.load source⟩) := by
    intro m
    change run _ _ _ ((p, movLinked 0x34 _) :: (n + 1, moveOffset) :: (n, jumpSlotR11) :: B) m = _
    rw [run_movLinked, run_moveOffset, run_jumpSlotR11, address_move hmove, displacement_jumpLink]
    dsimp only
    rw [Machine.set_regs_self]
  simp only [hrun, does_slot_iff (show (Transfer.jump (Source.data dataLink)).condition.all _ = true from rfl)]
  refine Iff.trans ⟨fun hdoes mem => (hdoes mem (Flags.ofWord 0) 0).1, fun hdoes mem flags mm1 => ?_⟩
    (load_iff (.jump (.data dataLink)) w dataLink.address source)
  exact ⟨hdoes mem, hdoes mem, (kept_refl (v := mm1) rfl).set⟩

/-- What stands for a call or a jump does what it should, whatever is in the memory, exactly if that is right. -/
theorem rewritten_does_iff (h : Placed table caller code A B n p next t) : (∀ mem flags mm1, Does table t
      (returnWord table caller originalSize code base B) B ⟨⟨regs, mem, flags⟩, mm1⟩
      (run originalSize code base (rewritten table caller n p next t ++ B) ⟨⟨regs, mem, flags⟩, mm1⟩)) ↔
    Right table regs (address originalSize code base B - 8) t := by
  cases t with
  | call source =>
    cases source with
    | entry target =>
      simp only [call_entry_iff h]
      exact ⟨fun hlt => hlt (fun _ => 0) (Flags.ofWord 0) 0, fun hlt _ _ _ => hlt⟩
    | operand o => exact call_operand_iff h
    | data link => exact call_data_iff h
  | jump source =>
    cases source with
    | entry target =>
      simp only [jump_entry_iff]
      exact ⟨fun hlt => hlt (fun _ => 0) (Flags.ofWord 0) 0, fun hlt _ _ _ => hlt⟩
    | operand o => exact jump_operand_iff
    | data link => exact jump_data_iff h
  | conditionalJump c target => exact conditionalJump_iff h

end Cases

end Rewritten

end Egalito.UseGSTable
