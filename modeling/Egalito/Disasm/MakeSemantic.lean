import Egalito.Serializer.SemanticTheorems
import Mathlib
/-!
# Finding the fields of an encoding

`MakeSemantic::getDispOffset` looks for the bytes of an operand's value from the
end of the instruction on, and `getOpIndex` for the operand that is found at an
offset. What is at the end can look like the field in front of it.
-/

open Egalito.Lib Egalito.Serializer

namespace Egalito.MakeSemantic

/-- `MakeSemantic::getOpIndex`, for an instruction of `opCount` operands; `none` for -1. -/
def getOpIndex (disasm : Disasm) (bytes : List UInt8) (opCount offset : Nat) : Option Nat :=
  (List.range opCount).find? fun i => offset = disasm.getDispOffset bytes (UInt8.ofNat i)

/-! ## Encodings -/

inductive OperandType
  | reg | mem | imm
deriving DecidableEq, Repr

/-- A displacement or an immediate: the low bytes of a value. -/
structure Field where
  size : Nat
  value : UInt64
  size_pos : 0 < size
  size_le : size ≤ 8

def Field.bytes (field : Field) : List UInt8 := leBytes field.size field.value.toNat

/-- Prefixes and opcode, a displacement and an immediate, and the operands in the order of the disassembler. One operand
at most stands for each of the fields. -/
structure Encoding where
  opcode : List UInt8
  disp : Option Field
  imm : Option Field
  operands : List OperandType
  opcode_ne : opcode ≠ []
  operands_le : operands.length ≤ 8
  mem_of_disp : disp.isSome → OperandType.mem ∈ operands
  mem_unique : disp.isSome → ∀ i j : Nat, operands[i]? = some OperandType.mem → operands[j]? = some OperandType.mem → i = j
  imm_unique : imm.isSome → ∀ i j : Nat, operands[i]? = some OperandType.imm → operands[j]? = some OperandType.imm → i = j

namespace Encoding

variable (e : Encoding)

def dispBytes : List UInt8 := e.disp.elim [] Field.bytes

def immBytes : List UInt8 := e.imm.elim [] Field.bytes

def bytes : List UInt8 := e.opcode ++ (e.dispBytes ++ e.immBytes)

/-- The field of operand `i`. -/
def field (i : Nat) : Option Field :=
  match e.operands[i]? with
  | some .mem => e.disp
  | some .imm => e.imm
  | _ => none

/-- Where the field of operand `i` starts. -/
def fieldOffset (i : Nat) : Nat :=
  match e.operands[i]? with
  | some .imm => e.opcode.length + e.dispBytes.length
  | _ => e.opcode.length

/-- The disassembler reports the value and the size of every field, and the size 0 where there is none. -/
structure ReportedBy (disasm : Disasm) : Prop where
  reg : ∀ i, e.operands[i]? = some .reg → disasm.operandValue e.bytes (UInt8.ofNat i) = none
  value : ∀ i, ∀ field ∈ e.field i, disasm.operandValue e.bytes (UInt8.ofNat i) = some field.value
  size : ∀ i, ∀ field ∈ e.field i, disasm.determineDisplacementSize e.bytes (UInt8.ofNat i) = field.size
  no_field : ∀ i < e.operands.length, e.field i = none → disasm.determineDisplacementSize e.bytes (UInt8.ofNat i) = 0

/-- The bytes of the displacement come again behind their place, in it and the immediate. -/
def Repeats : Prop := ∃ d ∈ e.disp, ∃ k, 0 < k ∧ k ≤ e.immBytes.length ∧
  ((d.bytes ++ e.immBytes).drop k).take d.size = d.bytes

end Encoding

/-! ## The search -/

section Search

variable {bytes : List UInt8} {size offset start k : Nat} {value : UInt64}

/-- The search does not go past a match. -/
theorem le_findDisp (hle : k ≤ start) (h : (bytes.drop k).take size = leBytes size value.toNat) :
    k ≤ findDisp bytes size value start := by
  induction start with
  | zero => exact hle
  | succ start ih =>
    rw [findDisp]
    split_ifs with hmatch
    · exact hle
    · rcases Nat.lt_or_eq_of_le hle with hlt | rfl
      · exact ih (Nat.le_of_lt_succ hlt)
      · exact absurd h hmatch

/-- Without a match behind `offset` the search comes to it. -/
theorem findDisp_le (hnone : ∀ k, offset < k → k ≤ start → (bytes.drop k).take size ≠ leBytes size value.toNat) :
    findDisp bytes size value start ≤ offset := by
  induction start with
  | zero => exact Nat.zero_le _
  | succ start ih =>
    rw [findDisp]
    split_ifs with hmatch
    · by_contra hlt
      exact hnone (start + 1) (Nat.lt_of_not_le hlt) le_rfl hmatch
    · exact ih fun k hk hle => hnone k hk (Nat.le_succ_of_le hle)

/-- The place that is found is the last one of the bytes. -/
theorem findDisp_eq_iff (hle : offset ≤ start) (h : (bytes.drop offset).take size = leBytes size value.toNat) :
    findDisp bytes size value start = offset ↔
      ∀ k, offset < k → k ≤ start → (bytes.drop k).take size ≠ leBytes size value.toNat := by
  constructor
  · rintro heq k hk hle' hmatch
    exact absurd (le_findDisp hle' hmatch) (by omega)
  · exact fun hnone => Nat.le_antisymm (findDisp_le hnone) (le_findDisp hle h)

end Search

section Exact

variable {e : Encoding} {disasm : Disasm} {i : Nat} {field d : Field} (h : e.ReportedBy disasm)

theorem Field.length_bytes (field : Field) : field.bytes.length = field.size := length_leBytes _ _

theorem length_bytes (e : Encoding) : e.bytes.length = e.opcode.length + (e.dispBytes.length + e.immBytes.length) := by
  rw [Encoding.bytes, List.length_append, List.length_append]

theorem opcode_pos (e : Encoding) : 0 < e.opcode.length := List.length_pos_of_ne_nil e.opcode_ne

theorem operand_of_field (hfield : e.field i = some field) :
    (e.operands[i]? = some .mem ∧ e.disp = some field) ∨ (e.operands[i]? = some .imm ∧ e.imm = some field) := by
  unfold Encoding.field at hfield
  cases hop : e.operands[i]? with
  | none => simp [hop] at hfield
  | some op =>
    rw [hop] at hfield
    cases op with
    | reg => cases hfield
    | mem => exact .inl ⟨rfl, hfield⟩
    | imm => exact .inr ⟨rfl, hfield⟩

/-- The field of an operand stands where it starts. -/
theorem take_field (hfield : e.field i = some field) :
    (e.bytes.drop (e.fieldOffset i)).take field.size = field.bytes ∧ e.fieldOffset i + field.size ≤ e.bytes.length := by
  rw [length_bytes, ← field.length_bytes]
  rcases operand_of_field hfield with ⟨hop, hdisp⟩ | ⟨hop, himm⟩
  · have hbytes : e.dispBytes = field.bytes := by rw [Encoding.dispBytes, hdisp]; rfl
    simp only [Encoding.fieldOffset, hop]
    rw [Encoding.bytes, List.drop_left, hbytes, List.take_left]
    exact ⟨rfl, by omega⟩
  · have hbytes : e.immBytes = field.bytes := by rw [Encoding.immBytes, himm]; rfl
    simp only [Encoding.fieldOffset, hop]
    rw [Encoding.bytes, ← List.append_assoc, List.drop_left' (by rw [List.length_append]), hbytes, List.take_length]
    exact ⟨rfl, by omega⟩

/-- Fields of two operands start at two places. -/
theorem fieldOffset_ne {j : Nat} {f : Field} (hi : e.field i = some field) (hj : e.field j = some f) (hne : j ≠ i) :
    e.fieldOffset i ≠ e.fieldOffset j := by
  have hpos : ∀ d, e.disp = some d → 0 < e.dispBytes.length := by
    intro d hd
    rw [Encoding.dispBytes, hd]
    exact d.length_bytes.symm ▸ d.size_pos
  rcases operand_of_field hi with ⟨hopi, hdi⟩ | ⟨hopi, hdi⟩ <;> rcases operand_of_field hj with ⟨hopj, hdj⟩ | ⟨hopj, hdj⟩
  · exact absurd (e.mem_unique (Option.isSome_of_mem hdi) j i hopj hopi) hne
  · have := hpos field hdi
    simp only [Encoding.fieldOffset, hopi, hopj]
    omega
  · have := hpos f hdj
    simp only [Encoding.fieldOffset, hopi, hopj]
    omega
  · exact absurd (e.imm_unique (Option.isSome_of_mem hdi) j i hopj hopi) hne

include h

theorem getDispOffset_field (hfield : e.field i = some field) :
    disasm.getDispOffset e.bytes (UInt8.ofNat i) =
      findDisp e.bytes field.size field.value (e.bytes.length - field.size) := by
  rw [Disasm.getDispOffset, h.value i field hfield, h.size i field hfield]

/-- An immediate is found at once. -/
theorem getDispOffset_imm (hop : e.operands[i]? = some .imm) (himm : e.imm = some field) :
    disasm.getDispOffset e.bytes (UInt8.ofNat i) = e.fieldOffset i := by
  have hfield : e.field i = some field := by simp only [Encoding.field, hop, himm]
  have hbytes : e.immBytes = field.bytes := by rw [Encoding.immBytes, himm]; rfl
  have hstart : e.bytes.length - field.size = e.fieldOffset i := by
    simp only [Encoding.fieldOffset, hop]
    rw [length_bytes, hbytes, field.length_bytes]
    omega
  rw [getDispOffset_field h hfield, hstart, findDisp_eq_iff le_rfl (take_field hfield).1]
  exact fun k hk hle => absurd hk (Nat.not_lt.2 hle)

/-- A displacement is found unless its bytes come again. -/
theorem getDispOffset_mem_iff (hop : e.operands[i]? = some .mem) (hdisp : e.disp = some d) :
    disasm.getDispOffset e.bytes (UInt8.ofNat i) = e.fieldOffset i ↔ ¬ e.Repeats := by
  have hfield : e.field i = some d := by simp only [Encoding.field, hop, hdisp]
  have hbytes : e.dispBytes = d.bytes := by rw [Encoding.dispBytes, hdisp]; rfl
  have hoffset : e.fieldOffset i = e.opcode.length := by simp only [Encoding.fieldOffset, hop]
  have hstart : e.bytes.length - d.size = e.opcode.length + e.immBytes.length := by
    rw [length_bytes, hbytes, d.length_bytes]
    omega
  have hdrop : ∀ k, (e.bytes.drop (e.opcode.length + k)).take d.size = ((d.bytes ++ e.immBytes).drop k).take d.size := by
    intro k
    rw [Encoding.bytes, hbytes, ← List.drop_drop, List.drop_left]
  have hmatch := (take_field hfield).1
  rw [hoffset] at hmatch
  rw [getDispOffset_field h hfield, hstart, hoffset, findDisp_eq_iff (Nat.le_add_right ..) hmatch]
  constructor
  · rintro hnone ⟨d', hd', k, hpos, hle, hrepeat⟩
    rw [hdisp, Option.mem_some_iff] at hd'
    subst hd'
    exact hnone (e.opcode.length + k) (by omega) (by omega) ((hdrop k).trans hrepeat)
  · intro hnone k hk hle hrepeat
    obtain ⟨j, rfl⟩ := Nat.exists_eq_add_of_le hk.le
    exact hnone ⟨d, hdisp, j, by omega, by omega, (hdrop j).symm.trans hrepeat⟩

theorem getDispOffset_eq (hnone : ¬ e.Repeats) (hfield : e.field i = some field) :
    disasm.getDispOffset e.bytes (UInt8.ofNat i) = e.fieldOffset i := by
  rcases operand_of_field hfield with ⟨hop, hdisp⟩ | ⟨hop, himm⟩
  · exact (getDispOffset_mem_iff h hop hdisp).2 hnone
  · exact getDispOffset_imm h hop himm

/-- Where an operand has no field, the search ends outside of all fields. -/
theorem getDispOffset_no_field (hi : i < e.operands.length) (hnone : e.field i = none) :
    disasm.getDispOffset e.bytes (UInt8.ofNat i) = 0 ∨ disasm.getDispOffset e.bytes (UInt8.ofNat i) = e.bytes.length := by
  rw [Disasm.getDispOffset]
  cases disasm.operandValue e.bytes (UInt8.ofNat i) with
  | none => exact .inl rfl
  | some value =>
    right
    simp only [h.no_field i hi hnone]
    have hmatch : (e.bytes.drop e.bytes.length).take 0 = leBytes 0 value.toNat := by simp [leBytes]
    rw [Nat.sub_zero, findDisp_eq_iff le_rfl hmatch]
    exact fun k hk hle => absurd hk (by omega)

/-- Of the operands, the one with the field is the only one that is found there. -/
theorem getOpIndex_eq (hnone : ¬ e.Repeats) (hfield : e.field i = some field) :
    getOpIndex disasm e.bytes e.operands.length (e.fieldOffset i) = some i := by
  have hi : i < e.operands.length := by
    by_contra hge
    rw [Encoding.field, List.getElem?_eq_none (by omega)] at hfield
    cases hfield
  have hpos := opcode_pos e
  have hinside := (take_field hfield).2
  have hfound : ∀ {j f}, e.field j = some f → disasm.getDispOffset e.bytes (UInt8.ofNat j) = e.fieldOffset j :=
    fun hf => getDispOffset_eq h hnone hf
  have hge : ∀ j, e.opcode.length ≤ e.fieldOffset j := by
    intro j
    unfold Encoding.fieldOffset
    split <;> omega
  unfold getOpIndex
  rw [List.find?_range_eq_some]
  refine ⟨by simpa using (hfound hfield).symm, List.mem_range.2 hi, fun j hji => ?_⟩
  have hne : e.fieldOffset i ≠ disasm.getDispOffset e.bytes (UInt8.ofNat j) := by
    cases hf : e.field j with
    | none =>
      have := field.size_pos
      have := hge i
      rcases getDispOffset_no_field h (by omega) hf with h₀ | h₀ <;> omega
    | some f =>
      rw [hfound hf]
      exact fieldOffset_ne hfield hf (Nat.ne_of_lt hji)
  simpa using hne

/-- Every field and its operand are found exactly when the bytes of the displacement do not come again. -/
theorem fields_found_iff : (∀ i field, e.field i = some field →
      disasm.getDispOffset e.bytes (UInt8.ofNat i) = e.fieldOffset i ∧
        getOpIndex disasm e.bytes e.operands.length (e.fieldOffset i) = some i) ↔ ¬ e.Repeats := by
  constructor
  · rintro hall hrepeats
    obtain ⟨d, hd, -⟩ := id hrepeats
    obtain ⟨i, hi, hop⟩ := List.mem_iff_getElem.1 (e.mem_of_disp (Option.isSome_of_mem hd))
    have hop : e.operands[i]? = some .mem := List.getElem?_eq_some_iff.2 ⟨hi, hop⟩
    have hfield : e.field i = some d := by
      simp only [Encoding.field, hop]
      exact hd
    exact (getDispOffset_mem_iff h hop hd).1 (hall i d hfield).1 hrepeats
  · intro hnone i field hfield
    exact ⟨getDispOffset_eq h hnone hfield, getOpIndex_eq h hnone hfield⟩

end Exact

/-! ### `movl $imm, disp(%rip)` -/

theorem four_pos_size : 0 < 4 := by decide

theorem four_le_size : 4 ≤ 8 := by decide

def movl (disp imm : UInt64) : Encoding where
  opcode := [0xc7, 0x05]
  disp := some ⟨4, disp, four_pos_size, four_le_size⟩
  imm := some ⟨4, imm, four_pos_size, four_le_size⟩
  operands := [.mem, .imm]
  opcode_ne := by decide
  operands_le := by decide
  mem_of_disp _ := by decide
  mem_unique _ i j hi hj := by
    rcases i with _ | _ | i <;> rcases j with _ | _ | j <;> simp_all
  imm_unique _ i j hi hj := by
    rcases i with _ | _ | i <;> rcases j with _ | _ | j <;> simp_all

/-- What a disassembler reports for it. -/
def movlDisasm (disp imm : UInt64) : Disasm where
  getBytes _ := none
  determineDisplacementSize _ _ := 4
  operandValue _ i := if i = 0 then some disp else some imm
  instructionSemantic _ := none
  length_le _ _ h := by cases h

theorem movl_reported (disp imm : UInt64) : (movl disp imm).ReportedBy (movlDisasm disp imm) := by
  have hop : ∀ i, (movl disp imm).operands[i]? = if i = 0 then some .mem else if i = 1 then some .imm else none := by
    intro i
    rcases i with _ | _ | i <;> rfl
  have hfield : ∀ i, (movl disp imm).field i = if i = 0 then (movl disp imm).disp else
      if i = 1 then (movl disp imm).imm else none := by
    intro i
    rcases i with _ | _ | i <;> rfl
  refine ⟨fun i hi => ?_, fun i field hi => ?_, fun i field hi => ?_, fun i hi hnone => ?_⟩
  · rw [hop] at hi
    split_ifs at hi <;> cases hi
  · rw [hfield] at hi
    split_ifs at hi with h₀ h₁ <;> cases hi
    · subst h₀
      rfl
    · subst h₁
      rfl
  · rw [hfield] at hi
    split_ifs at hi <;> cases hi <;> rfl
  · have hlt : i < 2 := hi
    rw [hfield] at hnone
    interval_cases i <;> cases hnone

/-- With equal fields the displacement is looked up in the place of the immediate. -/
theorem displacement_found_in_immediate : (movl 0x10 0x10).ReportedBy (movlDisasm 0x10 0x10) ∧
    (movl 0x10 0x10).fieldOffset 0 = 2 ∧ (movlDisasm 0x10 0x10).getDispOffset (movl 0x10 0x10).bytes 0 = 6 ∧
      (movl 0x10 0x10).fieldOffset 1 = 6 ∧ getOpIndex (movlDisasm 0x10 0x10) (movl 0x10 0x10).bytes 2 6 = some 0 ∧
        getOpIndex (movlDisasm 0x10 0x10) (movl 0x10 0x10).bytes 2 2 = none :=
  ⟨movl_reported _ _, by decide, by decide, by decide, by decide, by decide⟩

theorem fields_found_movl : (movlDisasm 0x20 0x10).getDispOffset (movl 0x20 0x10).bytes 0 = 2 ∧
    getOpIndex (movlDisasm 0x20 0x10) (movl 0x20 0x10).bytes 2 2 = some 0 := by
  refine (fields_found_iff (movl_reported 0x20 0x10)).2 ?_ 0 _ rfl
  rintro ⟨d, hd, k, hpos, hle, hrepeat⟩
  obtain rfl := Option.some.inj hd
  have hk : k ≤ 4 := hle
  interval_cases k <;> revert hrepeat <;> decide

end Egalito.MakeSemantic
