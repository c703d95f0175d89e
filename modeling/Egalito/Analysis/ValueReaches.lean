import Egalito.Analysis.SlicingTree
import Egalito.Lib.Run
import Egalito.Lib.Search
/-!
# Bounds along register moves

`JumptableDetection::valueReaches` looks for a way from the definition that a
comparison tests to a jump-table access. It follows the uses of a register
through moves and constant shifts, and goes back up to the definitions that are
referenced; the bound is shifted on the way down and kept on the way up.
-/

open Egalito.Lib

namespace Egalito.Analysis

/-! ## The search -/

/-- What a step does to the bound. -/
inductive Shift where
  | keep
  | right (count : Nat)
  | left (count : Nat)
deriving DecidableEq, Repr

/-- `subValue >>= shift` and `subValue <<= shift` on a `long`; `none` where the shift is undefined. -/
def Shift.bound? : Shift → Int → Option Int
  | keep, bound => some bound
  | right count, bound => if count < 64 then some (bound / 2 ^ count) else none
  | left count, bound => if count < 64 ∧ 0 ≤ bound ∧ bound * 2 ^ count < 2 ^ 63 then some (bound * 2 ^ count) else none

def cutsRegFlow : Option TreeNode → Bool
  | some (.unary (.dereference _) _) => true
  | _ => false

/-- The trees that the search goes through. -/
def shiftOf : TreeNode → Option Shift
  | .binary .logicalShiftRight _ (.constant count) => some (.right count.toNat)
  | .binary .logicalShiftLeft _ (.constant count) => some (.left count.toNat)
  | .physicalRegister .. | .register _ | .registerRIP _ => some .keep
  | _ => none

/-- Whether the value of `tree` is the one of `reg`, up to the shift. -/
def carriesReg (reg : Int) : TreeNode → Bool
  | .binary .logicalShiftRight left _ | .binary .logicalShiftLeft left _ => left.isRegister reg
  | tree => tree.isRegister reg

/-- A step of the search. What the search does not look at is whether the value goes along. -/
structure Link where
  shift : Shift
  carried : Bool
deriving DecidableEq, Repr

def moveBound (bound : Int) (link : Link) : Option Int := link.shift.bound? bound

section

variable {State : Type} (graph : UseDefGraph State)

/-- The loop over the uses and their definitions. -/
def downLinks (state : State) (reg : Int) : List (Link × State × Int) :=
  (graph.getRegUse state reg).flatMap fun use =>
    (graph.getRegDefList use).filterMap fun (reg', tree) =>
      match tree with
      | none => none
      | some tree => (shiftOf tree).map fun shift => (⟨shift, carriesReg reg tree⟩, use, reg')

/-- The loop over the references, which ends after one that loads the register. The register has the same value there
unless the state defines it. -/
def upLinks (state : State) (reg : Int) : List State → List (Link × State × Int)
  | [] => []
  | ref :: refs =>
    (⟨.keep, (graph.getRegDef state reg).isNone⟩, ref, reg) ::
      if cutsRegFlow (graph.getRegDef ref reg) then [] else upLinks state reg refs

def valueLinks (node : State × Int) : List (Link × State × Int) :=
  downLinks graph node.1 node.2 ++ upLinks graph node.1 node.2 (graph.getRegRef node.1 node.2)

variable [DecidableEq State]

/-- `use == state2` for one of the uses; `reg2` is not looked at. -/
def reachesState (state2 : State) (node : State × Int) : Bool :=
  (graph.getRegUse node.1 node.2).contains state2

/-- `valueReachesLoop`, with `seen` and the value it returns when it reaches `state2`. -/
def valueReachesLoop (fuel : Nat) (state : State) (reg : Int) (state2 : State) (seen : List State) (origValue : Int) :
    Outcome Int State :=
  search Prod.fst (valueLinks graph) (reachesState graph state2) moveBound fuel
    (state, reg) origValue seen

def valueReaches (fuel : Nat) (state : State) (reg : Int) (state2 : State) (boundValue : Int) : Option (Bool × Int) :=
  match valueReachesLoop graph fuel state reg state2 [] boundValue with
  | none => none
  | some (some value, _) => some (true, value)
  | some (none, _) => some (false, boundValue)

/-- The steps that the search has taken when it reaches `state2`. -/
def chainFound (fuel : Nat) (state : State) (reg : Int) (state2 : State) : Option (List Link) :=
  (searchPath Prod.fst (valueLinks graph) (reachesState graph state2) fuel (state, reg) [] []).bind Prod.fst

end

/-! ## The value along a chain -/

/-- What a shift does to the contents of a register. -/
def Shift.value : Shift → BitVec 64 → BitVec 64
  | keep, v => v
  | right count, v => v >>> count
  | left count, v => v <<< count

/-- The value after a step; where it does not go along, the register has any value. -/
def Link.Flows (link : Link) (v w : BitVec 64) : Prop := link.carried = true → w = link.shift.value v

/-- The value at the end of a chain. -/
inductive Flows : List Link → BitVec 64 → BitVec 64 → Prop
  | nil (v) : Flows [] v v
  | cons {link links u v w} (h : Link.Flows link u v) (hrest : Flows links v w) : Flows (link :: links) u w

/-- The bound is not below what comes out at the end. -/
def NeverUnderestimated (links : List Link) (bound bound' : Int) : Prop :=
  ∀ v w : BitVec 64, (v.toNat : Int) < bound → Flows links v w → (w.toNat : Int) < bound'

/-- A right shift leaves no remainder of the bound. -/
def Shift.NoRemainder : Shift → Int → Prop
  | right count, bound => 2 ^ count ∣ bound
  | _, _ => True

/-- The bound follows the value: the value goes along, and the bound is shifted without a remainder. -/
def Exactly (bound : Int) (link : Link) : Prop := link.carried = true ∧ link.shift.NoRemainder bound

/-! ## Shifts of values and of bounds -/

theorem toNat_ushiftRight (v : BitVec 64) (count : Nat) : ((v >>> count).toNat : Int) = (v.toNat : Int) / 2 ^ count := by
  rw [BitVec.toNat_ushiftRight, Nat.shiftRight_eq_div_pow]
  push_cast
  rfl

theorem toNat_shiftLeft {v : BitVec 64} {count : Nat} (h : (v.toNat : Int) * 2 ^ count < 2 ^ 63) :
    ((v <<< count).toNat : Int) = v.toNat * 2 ^ count := by
  have hlt : v.toNat * 2 ^ count < 2 ^ 64 := by
    have : ((v.toNat * 2 ^ count : Nat) : Int) < 2 ^ 63 := by push_cast; exact h
    omega
  rw [BitVec.toNat_shiftLeft, Nat.shiftLeft_eq, Nat.mod_eq_of_lt hlt]
  push_cast
  rfl

/-- A value below the bound stays below it, as long as a right shift leaves no remainder. -/
theorem value_lt {shift : Shift} {bound bound' : Int} {v : BitVec 64} (hbound : shift.bound? bound = some bound')
    (hexact : shift.NoRemainder bound) (hv : (v.toNat : Int) < bound) :
    ((shift.value v).toNat : Int) < bound' := by
  cases shift with
  | keep =>
    cases hbound
    exact hv
  | right count =>
    simp only [Shift.bound?, Option.ite_none_right_eq_some, Option.some.injEq] at hbound
    obtain ⟨-, rfl⟩ := hbound
    obtain ⟨q, rfl⟩ := hexact
    rw [Shift.value, toNat_ushiftRight, Int.mul_ediv_cancel_left q (by positivity)]
    exact Int.ediv_lt_of_lt_mul (by positivity) (by rwa [mul_comm])
  | left count =>
    simp only [Shift.bound?, Option.ite_none_right_eq_some, Option.some.injEq] at hbound
    obtain ⟨⟨-, -, hlt⟩, rfl⟩ := hbound
    have hmul : (v.toNat : Int) * 2 ^ count < bound * 2 ^ count := by gcongr
    rwa [Shift.value, toNat_shiftLeft (by omega)]

/-- A value that has the bound keeps having it. -/
theorem value_eq_bound {shift : Shift} {bound bound' : Int} {v : BitVec 64} (hbound : shift.bound? bound = some bound')
    (hv : (v.toNat : Int) = bound) : ((shift.value v).toNat : Int) = bound' := by
  subst hv
  cases shift with
  | keep =>
    cases hbound
    rfl
  | right count =>
    simp only [Shift.bound?, Option.ite_none_right_eq_some, Option.some.injEq] at hbound
    obtain ⟨-, rfl⟩ := hbound
    exact toNat_ushiftRight v count
  | left count =>
    simp only [Shift.bound?, Option.ite_none_right_eq_some, Option.some.injEq] at hbound
    obtain ⟨⟨-, -, hlt⟩, rfl⟩ := hbound
    exact toNat_shiftLeft hlt

/-- The largest value below a bound, when the possible values are the multiples of a power of two. -/
def Largest (bound : Int) (v : BitVec 64) : Prop := ∃ gap : Nat, (2 : Int) ^ gap ∣ bound ∧ (v.toNat : Int) + 2 ^ gap = bound

theorem largest_value {shift : Shift} {bound bound' : Int} {v : BitVec 64} (hbound : shift.bound? bound = some bound')
    (hexact : shift.NoRemainder bound) (hv : Largest bound v) : Largest bound' (shift.value v) := by
  obtain ⟨gap, hdvd, hgap⟩ := hv
  cases shift with
  | keep =>
    cases hbound
    exact ⟨gap, hdvd, hgap⟩
  | right count =>
    simp only [Shift.bound?, Option.ite_none_right_eq_some, Option.some.injEq] at hbound
    obtain ⟨-, rfl⟩ := hbound
    rw [Largest, Shift.value, toNat_ushiftRight]
    obtain ⟨q, rfl⟩ := hexact
    have hcount : (0 : Int) < 2 ^ count := by positivity
    rw [Int.mul_ediv_cancel_left q hcount.ne']
    rcases Nat.lt_or_ge gap count with hlt | hle
    · -- what lies between the value and the bound is less than one unit after the shift
      have hunit : (2 : Int) ^ gap < 2 ^ count := pow_lt_pow_right₀ (by decide) hlt
      have hpos : (0 : Int) < 2 ^ gap := by positivity
      refine ⟨0, one_dvd _, ?_⟩
      rw [(Int.ediv_emod_unique hcount (q := q - 1) (r := 2 ^ count - 2 ^ gap)).2 ⟨?_, by omega, by omega⟩ |>.1]
      · simp
      · rw [mul_sub]
        omega
    · obtain ⟨extra, rfl⟩ := Nat.exists_eq_add_of_le hle
      rw [pow_add] at hdvd hgap
      have hv : (v.toNat : Int) = 2 ^ count * (q - 2 ^ extra) := by
        rw [mul_sub]
        omega
      refine ⟨extra, Int.dvd_of_mul_dvd_mul_left hcount.ne' hdvd, ?_⟩
      rw [hv, Int.mul_ediv_cancel_left _ hcount.ne']
      omega
  | left count =>
    simp only [Shift.bound?, Option.ite_none_right_eq_some, Option.some.injEq] at hbound
    obtain ⟨⟨-, -, hlt⟩, rfl⟩ := hbound
    have hpos : (0 : Int) < 2 ^ gap := by positivity
    have hle : (v.toNat : Int) * 2 ^ count ≤ bound * 2 ^ count := by gcongr; omega
    refine ⟨gap + count, ?_, ?_⟩
    · rw [pow_add]
      exact mul_dvd_mul_right hdvd _
    · rw [Shift.value, toNat_shiftLeft (by omega), ← hgap, pow_add, add_mul]

/-- A right shift with a remainder takes the largest value to the bound. -/
theorem value_eq_of_remainder {shift : Shift} {bound bound' : Int} {v : BitVec 64}
    (hbound : shift.bound? bound = some bound') (hremainder : ¬ shift.NoRemainder bound) (hv : Largest bound v) :
    ((shift.value v).toNat : Int) = bound' := by
  obtain ⟨gap, hdvd, hgap⟩ := hv
  cases shift with
  | keep => exact (hremainder trivial).elim
  | left count => exact (hremainder trivial).elim
  | right count =>
    simp only [Shift.bound?, Option.ite_none_right_eq_some, Option.some.injEq] at hbound
    obtain ⟨-, rfl⟩ := hbound
    rw [Shift.value, toNat_ushiftRight]
    have hcount : (0 : Int) < 2 ^ count := by positivity
    have hlt : gap < count := by
      by_contra hge
      exact hremainder ((pow_dvd_pow 2 (by omega)).trans hdvd)
    -- both are multiples of `2 ^ gap`, so the remainder of the bound is at least that
    have hrest : (2 : Int) ^ gap ≤ bound % 2 ^ count := by
      refine Int.le_of_dvd ?_ ?_
      · exact lt_of_le_of_ne (Int.emod_nonneg _ hcount.ne') fun h => hremainder (Int.dvd_of_emod_eq_zero h.symm)
      · exact (EuclideanDomain.dvd_mod_iff (pow_dvd_pow 2 hlt.le)).2 hdvd
    have hless := Int.emod_lt_of_pos bound hcount
    have hsplit := Int.emod_add_mul_ediv bound (2 ^ count)
    have hpos : (0 : Int) < 2 ^ gap := by positivity
    exact ((Int.ediv_emod_unique hcount (q := bound / 2 ^ count) (r := bound % 2 ^ count - 2 ^ gap)).2
      ⟨by omega, by omega, by omega⟩).1

/-! ## Along a chain -/

/-- The bound at the end of a chain. -/
abbrev boundAlong (links : List Link) (bound : Int) : Option Int :=
  links.foldlM moveBound bound

theorem bound_range {bound bound' : Int} {link : Link} (h : moveBound bound link = some bound')
    (hrange : 0 ≤ bound ∧ bound < 2 ^ 63) : 0 ≤ bound' ∧ bound' < 2 ^ 63 := by
  obtain ⟨shift, carried⟩ := link
  cases shift with
  | keep =>
    cases h
    exact hrange
  | right count =>
    simp only [moveBound, Shift.bound?, Option.ite_none_right_eq_some, Option.some.injEq] at h
    obtain ⟨-, rfl⟩ := h
    exact ⟨Int.ediv_nonneg hrange.1 (by positivity), (Int.ediv_le_self _ hrange.1).trans_lt hrange.2⟩
  | left count =>
    simp only [moveBound, Shift.bound?, Option.ite_none_right_eq_some, Option.some.injEq] at h
    obtain ⟨⟨-, -, hlt⟩, rfl⟩ := h
    exact ⟨mul_nonneg hrange.1 (by positivity), hlt⟩

section

variable {links : List Link} {bound bound' : Int}

theorem lt_of_along {v w : BitVec 64} (hbound : boundAlong links bound = some bound')
    (h : Along moveBound Exactly bound links) (hflows : Flows links v w)
    (hv : (v.toNat : Int) < bound) : (w.toNat : Int) < bound' := by
  induction hflows generalizing bound with
  | nil v =>
    cases hbound
    exact hv
  | cons hstep _ ih =>
    rw [boundAlong, List.foldlM_cons, Option.bind_eq_bind, Option.bind_eq_some_iff] at hbound
    obtain ⟨bound₁, hstep₁, hbound⟩ := hbound
    obtain ⟨⟨hcarried, hexact⟩, hrest⟩ := h
    refine ih hbound (hrest bound₁ hstep₁) ?_
    rw [hstep hcarried]
    exact value_lt hstep₁ hexact hv

/-- A value that has the bound can keep it to the end of the chain. -/
theorem flows_of_eq_bound {v : BitVec 64} (hbound : boundAlong links bound = some bound')
    (hv : (v.toNat : Int) = bound) : ∃ w, Flows links v w ∧ (w.toNat : Int) = bound' := by
  induction links generalizing bound v with
  | nil =>
    cases hbound
    exact ⟨v, .nil v, hv⟩
  | cons link links ih =>
    rw [boundAlong, List.foldlM_cons, Option.bind_eq_bind, Option.bind_eq_some_iff] at hbound
    obtain ⟨bound₁, hstep, hbound⟩ := hbound
    obtain ⟨w, hflows, hw⟩ := ih hbound (value_eq_bound hstep hv)
    exact ⟨w, .cons (fun _ => rfl) hflows, hw⟩

/-- Where the chain loses something, some value below the bound comes out at the bound. -/
theorem flows_of_not_along {v : BitVec 64} (hbound : boundAlong links bound = some bound')
    (hrange : 0 ≤ bound ∧ bound < 2 ^ 63)
    (h : ¬ Along moveBound Exactly bound links) (hv : Largest bound v) :
    ∃ w, Flows links v w ∧ (w.toNat : Int) = bound' := by
  induction links generalizing bound v with
  | nil => exact (h trivial).elim
  | cons link links ih =>
    rw [boundAlong, List.foldlM_cons, Option.bind_eq_bind, Option.bind_eq_some_iff] at hbound
    obtain ⟨bound₁, hstep, hbound⟩ := hbound
    by_cases hcarried : link.carried = true
    · by_cases hexact : link.shift.NoRemainder bound
      · -- nothing is lost here, so it is lost later
        have hrest : ¬ Along moveBound Exactly bound₁ links := fun hrest =>
          h ⟨⟨hcarried, hexact⟩, fun bound₂ hstep₂ => by
            rw [hstep] at hstep₂
            cases hstep₂
            exact hrest⟩
        obtain ⟨w, hflows, hw⟩ := ih hbound (bound_range hstep hrange) hrest (largest_value hstep hexact hv)
        exact ⟨w, .cons (fun _ => rfl) hflows, hw⟩
      · obtain ⟨w, hflows, hw⟩ := flows_of_eq_bound hbound (value_eq_of_remainder hstep hexact hv)
        exact ⟨w, .cons (fun _ => rfl) hflows, hw⟩
    · -- the register has any value, and so the bound
      have hword : ((BitVec.ofInt 64 bound₁).toNat : Int) = bound₁ := by
        have := bound_range hstep hrange
        rw [BitVec.toNat_ofInt]
        omega
      obtain ⟨w, hflows, hw⟩ := flows_of_eq_bound hbound hword
      exact ⟨w, .cons (fun hcon => (hcarried hcon).elim) hflows, hw⟩

theorem neverUnderestimated_iff (hbound : boundAlong links bound = some bound') (hlong : bound < 2 ^ 63) :
    NeverUnderestimated links bound bound' ↔ bound ≤ 0 ∨ Along moveBound Exactly bound links := by
  constructor
  · intro h
    by_contra hcon
    push Not at hcon
    obtain ⟨hpos, hnot⟩ := hcon
    -- the largest value that is smaller than the bound
    have hlargest : ((BitVec.ofInt 64 (bound - 1)).toNat : Int) = bound - 1 := by
      rw [BitVec.toNat_ofInt]
      omega
    obtain ⟨w, hflows, hw⟩ := flows_of_not_along (v := BitVec.ofInt 64 (bound - 1)) hbound ⟨by omega, hlong⟩ hnot
      ⟨0, one_dvd _, by rw [hlargest]; simp⟩
    have := h _ w (by omega) hflows
    omega
  · rintro (hle | h) v w hv hflows
    · omega
    · exact lt_of_along hbound h hflows hv

end

/-! ## `valueReaches` -/

section

variable {State : Type} [DecidableEq State] {graph : UseDefGraph State}

theorem chain_of_valueReaches {fuel : Nat} {state state2 : State} {reg : Int} {bound bound' : Int}
    (h : valueReaches graph fuel state reg state2 bound = some (true, bound')) :
    ∃ links, chainFound graph fuel state reg state2 = some links ∧ boundAlong links bound = some bound' := by
  unfold valueReaches at h
  split at h
  · cases h
  · rename_i value seen hloop
    cases h
    obtain ⟨p, hp, hcarries⟩ := search_carries fuel (rfl : boundAlong [] bound = some bound) hloop
    cases p with
    | none => exact hcarries.elim
    | some links => exact ⟨links, by rw [chainFound, hp]; rfl, hcarries⟩
  · cases h

end

/-! ## An index that is halved -/

/-- `2: movzx eax, ..`, `0: cmp eax, ..`, `1: shr eax, 1` and the access `3`, which uses `eax`. -/
def halvedIndex : UseDefGraph Nat where
  getRegDefList
    | 0 => [(16, some (.comparison (.physicalRegister 0 4) (.constant 5)))]
    | 1 => [(0, some (.binary .logicalShiftRight (.physicalRegister 0 4) (.constant 1)))]
    | 2 => [(0, some (.unary (.dereference 1) (.physicalRegister 3 8)))]
    | _ => []
  getRegRef state reg := if reg = 0 then match state with | 0 | 1 => [2] | 3 => [1] | _ => [] else []
  getRegUse state reg := if reg = 0 then match state with | 2 => [0, 1] | 1 => [3] | _ => [] else []

theorem chainFound_halvedIndex : chainFound halvedIndex 4 0 0 3 = some [⟨.keep, true⟩, ⟨.right 1, true⟩] := by
  decide +kernel

end Egalito.Analysis
