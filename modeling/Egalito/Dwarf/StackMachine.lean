import Egalito.Dwarf.Operands
import Egalito.Lib.Machine
/-!
# The stack machine of expressions

The operations of an expression as the DWARF standard gives them, next to
`decode`. The two differ in the sign of quotients and comparisons, in
`DW_OP_bra`, which `decode` takes whatever it pops, and where operands or shift
amounts are too large.
-/

open Egalito.Lib

namespace Egalito.Dwarf

/-- The stack, from its top, and the place in the expression. -/
abbrev Config := List (BitVec 64) × DwarfCursor

/-! ## The standard -/

section Standard

variable (f : EhFrame) (registers : Nat → BitVec 64)

/-- One operation. Those that are not for computing a value on the stack are left out, and
an empty stack has no value to pop. -/
def standardOperation (stack : List (BitVec 64)) : DwarfOperation → CursorM (List (BitVec 64))
  | .addr => return (← next f 8) :: stack
  | .deref =>
    match stack with
    | value :: rest => do return (← f.read 8 value) :: rest
    | [] => failure
  | .constant bytes signed => do
    return (← if signed then nextSigned f bytes else next f bytes) :: stack
  | .constu => return (← standardUleb128 f) :: stack
  | .consts => return (← standardSleb128 f) :: stack
  | .dup => do return (← stack.head?) :: stack
  | .drop =>
    match stack with
    | _ :: rest => pure rest
    | [] => failure
  | .over => do return (← stack[1]?) :: stack
  | .pick => do
    let index ← next f 1
    return (← stack[index.toNat]?) :: stack
  | .swap =>
    match stack with
    | a :: b :: rest => pure (b :: a :: rest)
    | _ => failure
  -- the top becomes the third entry
  | .rot =>
    match stack with
    | a :: b :: c :: rest => pure (b :: c :: a :: rest)
    | _ => failure
  | .abs => unary (fun v => if v.toInt < 0 then -v else v) stack
  | .neg => unary (fun v => -v) stack
  | .not => unary (fun v => ~~~v) stack
  | .and => binary (· &&& ·) stack
  | .or => binary (· ||| ·) stack
  | .xor => binary (· ^^^ ·) stack
  -- the quotient is signed, the remainder is not
  | .div => divide (fun back value => back.sdiv value) stack
  | .minus => binary (· - ·) stack
  | .mod => divide (· % ·) stack
  | .mul => binary (· * ·) stack
  | .plus => binary (· + ·) stack
  | .plusUconst => do
    let value ← standardUleb128 f
    unary (· + value) stack
  | .shl => binary (fun back value => back <<< value.toNat) stack
  | .shr => binary (fun back value => back >>> value.toNat) stack
  | .shra => binary (fun back value => back.sshiftRight value.toNat) stack
  | .skip => do
    skip (← nextSigned f 2)
    return stack
  | .bra => do
    let offset ← nextSigned f 2
    match stack with
    | [] => failure
    | value :: rest =>
      skip (if value = 0 then 0 else offset)
      return rest
  | .eq => binary (fun back value => flag (back == value)) stack
  | .ge => binary (fun back value => flag (value.sle back)) stack
  | .gt => binary (fun back value => flag (value.slt back)) stack
  | .le => binary (fun back value => flag (back.sle value)) stack
  | .lt => binary (fun back value => flag (back.slt value)) stack
  | .ne => binary (fun back value => flag (back != value)) stack
  | .lit value => return BitVec.ofNat 64 value :: stack
  | .breg reg => do
    let offset ← standardSleb128 f
    return (registers reg + offset) :: stack
  | .bregx => do
    let reg ← standardUleb128 f
    let offset ← standardSleb128 f
    return (registers reg.toNat + offset) :: stack
  | .xderef | .reg _ | .regx | .derefSize | .unsupported => failure

/-- The machine runs until the end of the expression. -/
def stackMachine (stop : Address) : Machine Config where
  halted s := !decide (s.2.cursor < stop)
  step s := StateT.run (do
    let opcode ← next f 1
    standardOperation f registers s.1 (.ofCode opcode.toNat)) s.2

/-- The value of the expression here, when it has one after `n` steps. -/
def standardValue (n : Nat) (start : DwarfCursor) : Option (BitVec 64) := do
  let (length, start) ← (standardUleb128 f).run start
  let s ← (stackMachine f registers (start.cursor + length)).after n ([], start)
  if (stackMachine f registers (start.cursor + length)).halted s then s.1.head? else none

end Standard

/-- The loop of `decode` as a machine. -/
def decoderMachine (f : EhFrame) (state : DwarfState) (stop : Address) : Machine Config where
  halted s := !decide (s.2.cursor < stop)
  step s := StateT.run (do
    let opcode ← next f 1
    runOperation f state s.1 (.ofCode opcode.toNat)) s.2

/-! ## When an operation does the same -/

/-- The condition on the two upper values, where there are two. -/
def UpperTwo (P : BitVec 64 → BitVec 64 → Prop) : List (BitVec 64) → Prop
  | value :: back :: _ => P back value
  | _ => True

/-- The signed quotient is the unsigned one: neither value is negative, it is zero, or it
is trivial. -/
def SameQuotient (back value : BitVec 64) : Prop :=
  back.msb = false ∧ value.msb = false ∨ back.msb = false ∧ value.msb = true ∧ back < -value ∨ value = 1 ∨ back = value

/-- What an operation needs, with the cursor behind its code: operands and registers in
range, values of one sign, and a branch that is taken. -/
def OperationOk (f : EhFrame) (stack : List (BitVec 64)) (c : DwarfCursor) : DwarfOperation → Prop
  | .constu | .plusUconst => UlebOk f c
  | .consts => SlebOk f c
  | .breg reg => reg < DwarfState.numRegisters ∧ SlebOk f c
  | .bregx => ∀ gs c', (operandGroups f).run c = some (gs, c') →
      groupValue gs < DwarfState.numRegisters ∧ SlebOk f c'
  | .div => UpperTwo SameQuotient stack
  | .shl | .shr | .shra => UpperTwo (fun _ value => value.toNat < 64) stack
  | .ge | .gt | .le | .lt => UpperTwo (fun back value => back.msb = value.msb) stack
  | .bra => stack.head? = some 0 → f.read 2 c.cursor = some 0
  | _ => True

def StepOk (f : EhFrame) (s _ : Config) : Prop :=
  match (next f 1).run s.2 with
  | some (opcode, c) => OperationOk f s.1 c (.ofCode opcode.toNat)
  | none => True

/-! ## One operation -/

theorem sdiv_of_sameQuotient {back value : BitVec 64} (hzero : value ≠ 0) (h : SameQuotient back value) :
    back.sdiv value = back / value := by
  rw [BitVec.sdiv_eq]
  rcases h with ⟨hb, hv⟩ | ⟨hb, hv, hlt⟩ | rfl | rfl
  · rw [hb, hv]
    rfl
  · have hback : back < value := by
      rw [BitVec.lt_def] at hlt ⊢
      rw [BitVec.toNat_neg] at hlt
      have hsign := hv
      rw [BitVec.msb_eq_decide, decide_eq_true_eq] at hsign
      omega
    have hquotient : back / -value = 0 := BitVec.udiv_eq_zero_iff_eq_zero_or_lt.2 (.inr hlt)
    have hunsigned : back / value = 0 := BitVec.udiv_eq_zero_iff_eq_zero_or_lt.2 (.inr hback)
    rw [hb, hv, hunsigned]
    change -(back / -value) = 0
    rw [hquotient]
    rfl
  · cases hb : back.msb
    · rfl
    · change -(-back / 1) = back / 1
      simp
  · cases back.msb
    · rfl
    · have hneg : -back ≠ 0 := by simpa using hzero
      change -back / -back = back / back
      rw [BitVec.udiv_self, BitVec.udiv_self, if_neg (by simpa using hzero), if_neg (by simpa using hneg)]

variable {f : EhFrame} {state : DwarfState} {registers : Nat → BitVec 64} {stack stack' : List (BitVec 64)}
  {c c' : DwarfCursor}

/-- Operations that differ only in what they compute from the two upper values. -/
theorem binary_of_upperTwo {op op' : BitVec 64 → BitVec 64 → BitVec 64} {P : BitVec 64 → BitVec 64 → Prop}
    (hop : ∀ back value, P back value → op back value = op' back value) (hok : UpperTwo P stack)
    (h : StateT.run (m := Option) (liftM (binary op stack)) c = some (stack', c')) :
    StateT.run (m := Option) (liftM (binary op' stack)) c = some (stack', c') := by
  match stack, h with
  | value :: back :: rest, h =>
    rw [binary, ← hop back value hok]
    exact h

theorem divide_of_upperTwo (hok : UpperTwo SameQuotient stack)
    (h : StateT.run (m := Option) (liftM (divide (fun back value => back.sdiv value) stack)) c = some (stack', c')) :
    StateT.run (m := Option) (liftM (divide (· / ·) stack)) c = some (stack', c') := by
  match stack, h with
  | value :: back :: rest, h =>
    rw [divide] at h ⊢
    by_cases hzero : value = 0
    · rw [if_pos hzero] at h
      cases h
    · rw [if_neg hzero] at h ⊢
      rw [← sdiv_of_sameQuotient hzero hok]
      exact h

theorem get_of_lt {reg : BitVec 64} (h : reg.toNat < DwarfState.numRegisters) :
    state.get reg = some (state.registers reg.toNat) := if_pos h

/-- Under its condition an operation of the decoder does what the standard says. -/
theorem runOperation_of_standard (hregs : ∀ r < DwarfState.numRegisters, registers r = (state.registers r).offset)
    {op : DwarfOperation} (hok : OperationOk f stack c op)
    (h : (standardOperation f registers stack op).run c = some (stack', c')) :
    (runOperation f state stack op).run c = some (stack', c') := by
  cases op with
  | constu =>
    rw [standardOperation, run_bind_eq_some] at h
    obtain ⟨v, c₁, hv, h⟩ := h
    exact run_bind_eq_some.2 ⟨v, c₁, nextUleb128_of_standard hok hv, h⟩
  | consts =>
    rw [standardOperation, run_bind_eq_some] at h
    obtain ⟨v, c₁, hv, h⟩ := h
    exact run_bind_eq_some.2 ⟨v, c₁, nextSleb128_of_standard hok hv, h⟩
  | plusUconst =>
    rw [standardOperation, run_bind_eq_some] at h
    obtain ⟨v, c₁, hv, h⟩ := h
    exact run_bind_eq_some.2 ⟨v, c₁, nextUleb128_of_standard hok hv, h⟩
  | breg reg =>
    rw [standardOperation, run_bind_eq_some] at h
    obtain ⟨v, c₁, hv, h⟩ := h
    have hreg : (BitVec.ofNat 64 reg).toNat = reg := by
      rw [BitVec.toNat_ofNat, Nat.mod_eq_of_lt (hok.1.trans (by decide))]
    rw [hregs reg hok.1] at h
    refine run_bind_eq_some.2 ⟨v, c₁, nextSleb128_of_standard hok.2 hv, ?_⟩
    rw [get_of_lt (by rw [hreg]; exact hok.1), hreg]
    exact h
  | bregx =>
    rw [standardOperation, run_bind_eq_some] at h
    obtain ⟨reg, c₁, hreg, h⟩ := h
    rw [run_bind_eq_some] at h
    obtain ⟨offset, c₂, hoffset, h⟩ := h
    obtain ⟨gs, hgs, hvalue⟩ := standardUleb128_groups hreg
    obtain ⟨hlt, hsleb⟩ := hok gs c₁ hgs
    have huleb : UlebOk f c := by
      intro gs' c'' hgs'
      obtain ⟨hlt', -⟩ := hok gs' c'' hgs'
      exact .inl (hlt'.trans (by decide))
    rw [hvalue] at hlt
    rw [hregs reg.toNat hlt] at h
    refine run_bind_eq_some.2 ⟨reg, c₁, nextUleb128_of_standard huleb hreg, ?_⟩
    refine run_bind_eq_some.2 ⟨offset, c₂, nextSleb128_of_standard hsleb hoffset, ?_⟩
    rw [get_of_lt hlt]
    exact h
  | div => exact divide_of_upperTwo hok h
  | shl => exact binary_of_upperTwo (fun back value hlt => by rw [Nat.mod_eq_of_lt hlt]) hok h
  | shr => exact binary_of_upperTwo (fun back value hlt => by rw [Nat.mod_eq_of_lt hlt]) hok h
  | shra => exact binary_of_upperTwo (fun back value hlt => by rw [Nat.mod_eq_of_lt hlt]) hok h
  | ge => exact binary_of_upperTwo (fun _ _ hsign => by rw [BitVec.sle_eq_ule_of_msb_eq hsign.symm]) hok h
  | gt => exact binary_of_upperTwo (fun _ _ hsign => by rw [BitVec.slt_eq_ult_of_msb_eq hsign.symm]) hok h
  | le => exact binary_of_upperTwo (fun _ _ hsign => by rw [BitVec.sle_eq_ule_of_msb_eq hsign]) hok h
  | lt => exact binary_of_upperTwo (fun _ _ hsign => by rw [BitVec.slt_eq_ult_of_msb_eq hsign]) hok h
  | bra =>
    rw [standardOperation, run_bind_eq_some] at h
    obtain ⟨offset, c₁, hoffset, h⟩ := h
    refine run_bind_eq_some.2 ⟨offset, c₁, hoffset, ?_⟩
    match stack, hok, h with
    | value :: rest, hok, h =>
      by_cases hzero : value = 0
      · have hread : f.read 2 c.cursor = some 0 := hok (by rw [hzero, List.head?_cons])
        have hstay : offset = 0 := by
          rw [nextSigned, StateT.run_bind, next_run, hread] at hoffset
          simp only [Option.map_some, Option.bind_eq_bind, Option.bind_some] at hoffset
          cases hoffset
          rfl
        subst hzero hstay
        exact h
      · simp only [if_neg hzero] at h
        exact h
  | xderef | reg | regx | derefSize | unsupported => cases h
  | _ => exact h

theorem step_of_standard (hregs : ∀ r < DwarfState.numRegisters, registers r = (state.registers r).offset)
    {stop : Address} {s s' : Config} (hok : StepOk f s s) (h : (stackMachine f registers stop).step s = some s') :
    (decoderMachine f state stop).step s = some s' := by
  obtain ⟨opcode, c, hopcode, h⟩ := run_bind_eq_some.1 h
  rw [StepOk, hopcode] at hok
  exact run_bind_eq_some.2 ⟨opcode, c, hopcode, runOperation_of_standard hregs hok h⟩

/-! ## Whole expressions -/

/-- The loop of `decode` ends where its machine halts. -/
theorem runExpression_of_after {stop : Address} {n : Nat} {s s' : Config}
    (h : (decoderMachine f state stop).after n s = some s') (hhalted : (decoderMachine f state stop).halted s' = true) :
    (runExpression f state stop (n + 1) s.1).run s.2 = some s' := by
  induction n generalizing s with
  | zero =>
    simp only [Machine.after, Option.some.injEq] at h
    subst h
    have hend : ¬s.2.cursor < stop := by simpa [decoderMachine] using hhalted
    simp [runExpression, hend]
  | succ n ih =>
    rw [Machine.after] at h
    rw [runExpression, StateT.run_bind, StateT.run_get]
    simp only [Option.pure_def, Option.bind_eq_bind, Option.bind_some]
    by_cases hend : s.2.cursor < stop
    · have hrun : (decoderMachine f state stop).halted s = false := by simpa [decoderMachine] using hend
      rw [hrun, if_neg (by decide), Option.bind_eq_some_iff] at h
      obtain ⟨s₁, hstep, h⟩ := h
      rw [if_pos hend, ← ih h]
      obtain ⟨opcode, c, hopcode, hop⟩ := run_bind_eq_some.1 hstep
      rw [StateT.run_bind, hopcode]
      simp only [Option.bind_eq_bind, Option.bind_some]
      rw [StateT.run_bind, hop]
      rfl
    · have hrun : (decoderMachine f state stop).halted s = true := by simpa [decoderMachine] using hend
      rw [if_pos hrun] at h
      cases h
      rw [if_neg hend]
      rfl

/-- In every run of the standard's machine whose steps all meet the condition, the decoder has the same stack
at the same place in every state, and gives the same value at the end. -/
theorem decoding_agrees (f : EhFrame) (state : DwarfState) (registers : Nat → BitVec 64)
    (hregs : ∀ r < DwarfState.numRegisters, registers r = (state.registers r).offset) (start c : DwarfCursor)
    (length : BitVec 64) (hlength : (standardUleb128 f).run start = some (length, c)) (hblock : UlebOk f start) (n : Nat)
    (hsteps : Machine.Along (stackMachine f registers (c.cursor + length)) (decoderMachine f state (c.cursor + length))
      (StepOk f) n ([], c) ([], c)) :
    (∀ k ≤ n, ∀ s, (stackMachine f registers (c.cursor + length)).after k ([], c) = some s →
      (decoderMachine f state (c.cursor + length)).after k ([], c) = some s) ∧
    (∀ v, standardValue f registers n start = some v → decodeExpression f state (n + 1) start = some v) := by
  have hrun : ∀ k ≤ n, ∀ s, (stackMachine f registers (c.cursor + length)).after k ([], c) = some s →
      (decoderMachine f state (c.cursor + length)).after k ([], c) = some s := by
    intro k hk s hs
    have hhalted : ∀ s t : Config, s = t → (decoderMachine f state (c.cursor + length)).halted t =
        (stackMachine f registers (c.cursor + length)).halted s := by
      rintro s _ rfl
      rfl
    obtain ⟨t, ht, rfl⟩ := Machine.simulates hhalted
      (fun s t s' hst hok _ hs' => ⟨s', by subst hst; exact step_of_standard hregs hok hs', rfl⟩)
      rfl (hsteps.mono hk) hs
    exact ht
  refine ⟨hrun, fun v hv => ?_⟩
  rw [standardValue, hlength] at hv
  simp only [Option.bind_eq_bind, Option.bind_some, Option.bind_eq_some_iff] at hv
  obtain ⟨s, hs, hv⟩ := hv
  by_cases hhalted : (stackMachine f registers (c.cursor + length)).halted s = true
  · rw [if_pos hhalted] at hv
    rw [decodeExpression, nextUleb128_of_standard hblock hlength]
    have hexpr := runExpression_of_after (hrun n le_rfl s hs) hhalted
    simp only [Option.bind_eq_bind, Option.bind_some]
    rw [hexpr]
    exact hv
  · rw [if_neg hhalted] at hv
    cases hv

/-- `5 >= 3`. -/
def compareFrame : EhFrame := ⟨0, 0, [0x03, 0x35, 0x33, 0x2a], by decide⟩

theorem compare_agrees : standardValue compareFrame (fun _ => 0) 3 (.at 0) = some 1 ∧
    decodeExpression compareFrame .empty 4 (.at 0) = some 1 := by
  have hvalue : standardValue compareFrame (fun _ => 0) 3 (.at 0) = some 1 := by decide +kernel
  refine ⟨hvalue, (decoding_agrees compareFrame .empty (fun _ => 0) (fun _ _ => rfl) (.at 0) ⟨0, 1⟩ 3 ?_ ?_ 3 ?_).2 1 hvalue⟩
  · decide +kernel
  · intro gs c' h
    cases h
    decide
  · refine fun _ => ⟨trivial, fun s t hs ht => ?_⟩
    cases hs
    cases ht
    refine fun _ => ⟨trivial, fun s t hs ht => ?_⟩
    cases hs
    cases ht
    exact fun _ => ⟨rfl, fun _ _ _ _ => trivial⟩

/-- `5`, and `7` unless the zero above it branches. -/
def branchFrame : EhFrame := ⟨0, 0, [0x06, 0x35, 0x30, 0x28, 0x01, 0x00, 0x37], by decide⟩

/-- `-1 < 0`. -/
def signFrame : EhFrame := ⟨0, 0, [0x04, 0x31, 0x1f, 0x30, 0x2d], by decide⟩

/-- A branch over a zero is taken, and a negative value is not below zero. -/
theorem branch_on_zero :
    standardValue branchFrame (fun _ => 0) 4 (.at 0) = some 7 ∧
      decodeExpression branchFrame .empty 5 (.at 0) = some 5 ∧
    standardValue signFrame (fun _ => 0) 4 (.at 0) = some 1 ∧
      decodeExpression signFrame .empty 5 (.at 0) = some 0 := by
  decide +kernel

end Egalito.Dwarf
