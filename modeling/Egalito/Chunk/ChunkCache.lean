import Egalito.Instr.LinkedInstruction
/-!
# The cached bytes of a function

`chunk/cache.cpp`: the code of a function as it was written at one address, and
the places where a copy elsewhere needs the distance of the two. `make` notes
the places of the links to data only, so a copy is the code of its new address
when the other links have displacements that do not depend on the address.
-/

open Egalito.Lib Egalito.LinkedInstruction

namespace Egalito.ChunkCache

/-- A chunk of the function moves with it. -/
inductive Target
  | inside (offset : UInt64)
  | elsewhere (address : UInt64)

/-- A `DataOffsetLink`, or a link of another class. -/
inductive Link
  | dataOffset (address : UInt64)
  | other (isRIPRelative : Bool) (target : Target)

namespace Link

def isRIPRelative : Link → Bool
  | dataOffset _ => true
  | other relative _ => relative

/-- `getTargetAddress` while the function is at `function`. -/
def getTargetAddress (function : UInt64) : Link → UInt64
  | dataOffset address => address
  | other _ (.inside offset) => function + offset
  | other _ (.elsewhere address) => address

def resolved (link : Link) (function : UInt64) : LinkTarget := ⟨link.getTargetAddress function, link.isRIPRelative⟩

end Link

/-- A displacement is inside of its instruction, and has four bytes where it is relative. -/
structure LinkedSemantic extends LinkedInstructionBase where
  link : Option Link
  inside : displacementOffset + displacementSize ≤ bytes.length
  size_pos : link.isSome → 0 < displacementSize
  relative : ∀ l ∈ link, l.isRIPRelative → displacementSize = 4

/-- Without a link the displacement is 0. -/
def LinkedSemantic.resolved (l : LinkedSemantic) (function : UInt64) : LinkTarget :=
  l.link.elim ⟨0, false⟩ fun link => link.resolved function

structure ControlFlowSemantic extends ControlFlowInstructionBase where
  link : Link
  size_pos : 0 < displacementSize

/-- The semantic of an instruction: with bytes of its own, a `LinkedInstruction`, a `DataLinkedControlFlowInstruction` or
a `ControlFlowInstruction`. -/
inductive Semantic
  | isolated (bytes : List UInt8)
  | linked (l : LinkedSemantic)
  | dataLinked (l : LinkedSemantic)
  | controlFlow (cf : ControlFlowSemantic)

namespace Semantic

def getLink : Semantic → Option Link
  | isolated _ => none
  | linked l => l.link
  | dataLinked l => l.link
  | controlFlow cf => some cf.link

def getSize : Semantic → Nat
  | isolated bytes => bytes.length
  | linked l => l.bytes.length
  | dataLinked l => l.bytes.length
  | controlFlow cf => cf.getSize

/-- `InstrWriterCString`, for an instruction at `address` of the function at `function`. -/
def writeToMemory (s : Semantic) (function address : UInt64) (mem : Nat → UInt8) (target : Nat) : Nat → UInt8 :=
  match s with
  | isolated bytes => copyTo mem target bytes
  | linked l => l.writeToMemory address (l.resolved function) mem target
  | dataLinked l => l.writeToMemory address (l.resolved function) mem target
  | controlFlow cf => cf.writeToMemory address (cf.link.resolved function) mem target

/-- `InstrWriterCppString`. -/
def writeToString (s : Semantic) (function address : UInt64) (target : List UInt8) : List UInt8 :=
  match s with
  | isolated bytes => target ++ bytes
  | linked l => l.writeToString address (l.resolved function) target
  | dataLinked l => l.writeToString address (l.resolved function) target
  | controlFlow cf => cf.writeToString address (cf.link.resolved function) target

end Semantic

/-- The instructions of the blocks of a function, in a row from its address on. -/
abbrev Function := List (List Semantic)

structure ChunkCache where
  address : UInt64
  data : List UInt8
  fixups : List Nat

/-- The loop over the instructions, with the offset of the next one. -/
structure Making where
  position : Nat
  data : List UInt8
  fixups : List Nat

/-- One instruction in `make`. A `DataOffsetLink` of another class than `LinkedInstruction` fails an assertion. -/
def makeInstruction (address : UInt64) (s : Making) (semantic : Semantic) : Option Making :=
  let data := semantic.writeToString address (address + UInt64.ofNat s.position) s.data
  let position := s.position + semantic.getSize
  match semantic.getLink with
  | some (.dataOffset _) =>
    match semantic with
    | .linked v => some ⟨position, data, s.fixups ++ [s.position + v.displacementOffset]⟩
    | _ => none
  | _ => some ⟨position, data, s.fixups⟩

def make (address : UInt64) (function : Function) : Option ChunkCache := do
  let s ← function.foldlM (fun s block => block.foldlM (makeInstruction address) s) ⟨0, [], []⟩
  return ⟨address, s.data, s.fixups⟩

/-- The words are read from the cache, and the distance has 32 bits. -/
def copyAndFix (cache : ChunkCache) (output : UInt64) (mem : Nat → UInt8) : Nat → UInt8 :=
  cache.fixups.foldl (fun mem offset =>
    let delta := (cache.address - output).toUInt32
    let word := UInt32.ofNat (leNat ((cache.data.drop offset).take 4))
    copyTo mem (output.toNat + offset) (leBytes 4 (word + delta).toNat)) (copyTo mem output.toNat cache.data)

def regenerateInstruction (output : UInt64) (s : (Nat → UInt8) × Nat) (semantic : Semantic) : (Nat → UInt8) × Nat :=
  (semantic.writeToMemory output (output + UInt64.ofNat s.2) s.1 (output.toNat + s.2), s.2 + semantic.getSize)

/-- `copyToSandbox` of a function without a cache. -/
def regenerate (function : Function) (output : UInt64) (mem : Nat → UInt8) : Nat → UInt8 :=
  (function.foldl (fun s block => block.foldl (regenerateInstruction output) s) (mem, 0)).1

/-! ## What is covered -/

/-- The displacement of the link does not depend on where the function is. -/
def Link.Independent : Link → Prop
  | .other true (.inside _) => True
  | .other false (.elsewhere _) => True
  | _ => False

def Link.IsDataOffset : Link → Prop
  | .dataOffset _ => True
  | _ => False

/-- A fixup is made for the link, or none is needed. -/
def Semantic.Covered : Semantic → Prop
  | .isolated _ => True
  | .linked l => ∀ link ∈ l.link, link.Independent ∨ link.IsDataOffset
  | .dataLinked l => ∀ link ∈ l.link, link.Independent
  | .controlFlow cf => cf.link.Independent

/-! ## The code at an address -/

namespace Semantic

/-- The bytes of an instruction at `address` of the function at `function`. -/
def written (s : Semantic) (function address : UInt64) : List UInt8 :=
  match s with
  | isolated bytes => bytes
  | linked l => l.written address (l.resolved function)
  | dataLinked l => l.written address (l.resolved function)
  | controlFlow cf => cf.written address (cf.link.resolved function)

variable (s : Semantic) (function address : UInt64)

theorem length_written : (s.written function address).length = s.getSize := by
  have hlinked : ∀ l : LinkedSemantic, (l.written address (l.resolved function)).length = l.bytes.length := by
    intro l
    refine length_setAt ?_
    rw [length_leBytes]
    exact l.inside
  cases s with
  | isolated bytes => rfl
  | linked l => exact hlinked l
  | dataLinked l => exact hlinked l
  | controlFlow cf =>
    simp only [written, ControlFlowInstructionBase.written, List.length_append, length_leBytes]
    rfl

theorem writeToString_eq (text : List UInt8) :
    s.writeToString function address text = text ++ s.written function address := by
  cases s with
  | isolated bytes => rfl
  | linked l => exact linked_writeToString text
  | dataLinked l => exact linked_writeToString text
  | controlFlow cf => exact controlFlow_writeToString text

theorem writeToMemory_eq (mem : Nat → UInt8) (target : Nat) :
    s.writeToMemory function address mem target = copyTo mem target (s.written function address) := by
  cases s with
  | isolated bytes => rfl
  | linked l => exact linked_writeToMemory (Nat.le_of_add_right_le l.inside) mem target
  | dataLinked l => exact linked_writeToMemory (Nat.le_of_add_right_le l.inside) mem target
  | controlFlow cf => exact controlFlow_writeToMemory mem target

/-- Where the displacement is that `make` notes. -/
def fixup : Semantic → Option Nat
  | linked l => l.link.bind fun link => match link with
    | .dataOffset _ => some l.displacementOffset
    | .other _ _ => none
  | _ => none

/-- The assertion of `make` holds. -/
def Makes : Semantic → Prop
  | dataLinked l => ∀ link ∈ l.link, ¬ link.IsDataOffset
  | controlFlow cf => ¬ cf.link.IsDataOffset
  | _ => True

end Semantic

/-- The instructions from `position` on, of the function at `function`. -/
def code (function : UInt64) : Nat → List Semantic → List UInt8
  | _, [] => []
  | position, s :: rest =>
    s.written function (function + UInt64.ofNat position) ++ code function (position + s.getSize) rest

def fixups : Nat → List Semantic → List Nat
  | _, [] => []
  | position, s :: rest => s.fixup.toList.map (position + ·) ++ fixups (position + s.getSize) rest

theorem foldlM_flatten {σ α : Type} (step : σ → α → Option σ) (l : List (List α)) (s : σ) :
    l.foldlM (fun s as => as.foldlM step s) s = l.flatten.foldlM step s := by
  induction l generalizing s with
  | nil => rfl
  | cons as l ih =>
    rw [List.flatten_cons, List.foldlM_append, List.foldlM_cons]
    exact congrArg _ (funext ih)

theorem makeInstruction_eq (address : UInt64) (s : Making) (semantic : Semantic) :
    (semantic.Makes → makeInstruction address s semantic = some ⟨s.position + semantic.getSize,
      s.data ++ semantic.written address (address + UInt64.ofNat s.position),
      s.fixups ++ semantic.fixup.toList.map (s.position + ·)⟩) ∧
    (¬ semantic.Makes → makeInstruction address s semantic = none) := by
  unfold makeInstruction
  rw [semantic.writeToString_eq]
  cases semantic with
  | isolated bytes => simp [Semantic.getLink, Semantic.Makes, Semantic.fixup]
  | linked l =>
    rcases hlink : l.link with _ | _ | _ <;> simp [Semantic.getLink, Semantic.Makes, Semantic.fixup, hlink]
  | dataLinked l =>
    rcases hlink : l.link with _ | _ | _ <;>
      simp [Semantic.getLink, Semantic.Makes, Semantic.fixup, hlink, Link.IsDataOffset]
  | controlFlow cf =>
    rcases hlink : cf.link with _ | _ <;>
      simp [Semantic.getLink, Semantic.Makes, Semantic.fixup, hlink, Link.IsDataOffset]

theorem foldlM_makeInstruction (address : UInt64) (l : List Semantic) (s : Making) :
    ((∀ x ∈ l, x.Makes) → ∃ position, l.foldlM (makeInstruction address) s = some ⟨position,
      s.data ++ code address s.position l, s.fixups ++ fixups s.position l⟩) ∧
    ((∃ x ∈ l, ¬ x.Makes) → l.foldlM (makeInstruction address) s = none) := by
  induction l generalizing s with
  | nil => exact ⟨fun _ => ⟨s.position, by simp [code, fixups]⟩, fun ⟨x, hx, _⟩ => nomatch hx⟩
  | cons x l ih =>
    obtain ⟨hok, hfail⟩ := makeInstruction_eq address s x
    rw [List.foldlM_cons]
    by_cases hx : x.Makes
    · rw [hok hx]
      constructor
      · intro hall
        obtain ⟨position, hrest⟩ := (ih _).1 (List.forall_mem_cons.1 hall).2
        refine ⟨position, hrest.trans ?_⟩
        simp only [code, fixups, List.append_assoc]
      · rintro ⟨y, hy, hne⟩
        rcases List.mem_cons.1 hy with rfl | hy
        · exact absurd hx hne
        · exact (ih _).2 ⟨y, hy, hne⟩
    · rw [hfail hx]
      exact ⟨fun hall => absurd (List.forall_mem_cons.1 hall).1 hx, fun _ => rfl⟩

theorem make_eq (address : UInt64) (function : Function) :
    ((∀ s ∈ function.flatten, s.Makes) →
      make address function = some ⟨address, code address 0 function.flatten, fixups 0 function.flatten⟩) ∧
    ((∃ s ∈ function.flatten, ¬ s.Makes) → make address function = none) := by
  obtain ⟨hok, hfail⟩ := foldlM_makeInstruction address function.flatten ⟨0, [], []⟩
  unfold make
  rw [foldlM_flatten]
  constructor
  · intro hall
    obtain ⟨position, hrun⟩ := hok hall
    rw [hrun]
    rfl
  · intro hsome
    rw [hfail hsome]
    rfl

theorem foldl_regenerate (output : UInt64) (l : List Semantic) (pre : List UInt8) (mem : Nat → UInt8) :
    (l.foldl (regenerateInstruction output) (copyTo mem output.toNat pre, pre.length)).1 =
      copyTo mem output.toNat (pre ++ code output pre.length l) := by
  induction l generalizing pre with
  | nil => simp [code]
  | cons s l ih =>
    have hlen := s.length_written output (output + UInt64.ofNat pre.length)
    have hnext := ih (pre ++ s.written output (output + UInt64.ofNat pre.length))
    rw [List.length_append, hlen, List.append_assoc] at hnext
    rw [List.foldl_cons, regenerateInstruction, s.writeToMemory_eq, copyTo_append]
    exact hnext

theorem regenerate_eq (function : Function) (output : UInt64) (mem : Nat → UInt8) :
    regenerate function output mem = copyTo mem output.toNat (code output 0 function.flatten) := by
  have hempty : copyTo mem output.toNat [] = mem := by
    funext x
    simp [copyTo]
  have h := foldl_regenerate output function.flatten [] mem
  rw [hempty, List.foldl_flatten] at h
  exact h

/-! ## The copy -/

/-- The word that `copyAndFix` writes at `offset`. -/
def fixedWord (address output : UInt64) (bytes : List UInt8) (offset : Nat) : List UInt8 :=
  leBytes 4 (UInt32.ofNat (leNat ((bytes.drop offset).take 4)) + (address - output).toUInt32).toNat

namespace Semantic

/-- The bytes of an instruction in the copy. -/
def fixed (s : Semantic) (address output : UInt64) (position : Nat) : List UInt8 :=
  let bytes := s.written address (address + UInt64.ofNat position)
  match s.fixup with
  | none => bytes
  | some offset => setAt bytes offset (fixedWord address output bytes offset)

variable {s : Semantic} {offset : Nat}

/-- A fixup is for the displacement of a `LinkedInstruction`. -/
theorem linked_of_fixup (h : s.fixup = some offset) : ∃ l, s = linked l ∧ l.displacementOffset = offset ∧
    l.displacementSize = 4 ∧ ∃ target, l.link = some (.dataOffset target) := by
  cases s with
  | linked l =>
    rcases hlink : l.link with _ | target | _
    · simp [fixup, hlink] at h
    · refine ⟨l, rfl, by simpa [fixup, hlink] using h, l.relative _ hlink rfl, target, hlink⟩
    · simp [fixup, hlink] at h
  | isolated bytes => cases h
  | dataLinked l => cases h
  | controlFlow cf => cases h

theorem fixup_inside (h : s.fixup = some offset) : offset + 4 ≤ s.getSize := by
  obtain ⟨l, rfl, rfl, hsize, -⟩ := linked_of_fixup h
  have hinside := l.inside
  rw [hsize] at hinside
  exact hinside

theorem length_fixed (s : Semantic) (address output : UInt64) (position : Nat) :
    (s.fixed address output position).length = s.getSize := by
  unfold fixed
  cases h : s.fixup with
  | none => exact s.length_written _ _
  | some offset =>
    refine (length_setAt ?_).trans (s.length_written _ _)
    rw [fixedWord, length_leBytes, s.length_written]
    exact fixup_inside h

end Semantic

def fixedCode (address output : UInt64) : Nat → List Semantic → List UInt8
  | _, [] => []
  | position, s :: rest =>
    s.fixed address output position ++ fixedCode address output (position + s.getSize) rest

/-- Each fixup changes its instruction only, and reads what the cache has there. -/
theorem foldl_fixups (address output : UInt64) (mem : Nat → UInt8) (l : List Semantic) {pre pre' : List UInt8}
    {position : Nat} (hpre : pre.length = position) (hpre' : pre'.length = position) :
    (fixups position l).foldl (fun mem offset => copyTo mem (output.toNat + offset)
      (fixedWord address output (pre ++ code address position l) offset))
      (copyTo mem output.toNat (pre' ++ code address position l)) =
        copyTo mem output.toNat (pre' ++ fixedCode address output position l) := by
  induction l generalizing pre pre' position with
  | nil => rfl
  | cons s l ih =>
    have hlen := s.length_written address (address + UInt64.ofNat position)
    have hfixed := s.length_fixed address output position
    have hrest := @ih (pre ++ s.written address (address + UInt64.ofNat position)) (pre' ++ s.fixed address output position)
      (position + s.getSize) (by rw [List.length_append, hlen, hpre]) (by rw [List.length_append, hfixed, hpre'])
    rw [List.append_assoc, List.append_assoc, List.append_assoc] at hrest
    rw [fixups, List.foldl_append, code, fixedCode]
    refine Eq.trans ?_ hrest
    congr 1
    cases hfix : s.fixup with
    | none =>
      simp only [Semantic.fixed, hfix]
      rfl
    | some offset =>
      have hinside := Semantic.fixup_inside hfix
      rw [← hlen] at hinside
      have hword : fixedWord address output (pre ++ (s.written address (address + UInt64.ofNat position) ++
          code address (position + s.getSize) l)) (position + offset) =
          fixedWord address output (s.written address (address + UInt64.ofNat position)) offset := by
        rw [fixedWord, take_drop_middle hpre hinside, fixedWord]
      have hfour : (fixedWord address output (s.written address (address + UInt64.ofNat position)) offset).length = 4 :=
        length_leBytes _ _
      simp only [Option.toList_some, List.map_cons, List.map_nil, List.foldl_cons, List.foldl_nil, hword,
        Semantic.fixed, hfix]
      rw [copyTo_field, setAt_middle hpre']
      · rw [hfour]
        exact hinside
      · simp only [hfour, List.length_append]
        omega

theorem copyAndFix_eq (address output : UInt64) (l : List Semantic) (mem : Nat → UInt8) :
    copyAndFix ⟨address, code address 0 l, fixups 0 l⟩ output mem =
      copyTo mem output.toNat (fixedCode address output 0 l) :=
  @foldl_fixups address output mem l [] [] 0 rfl rfl

/-! ## Displacements -/

section Displacements

variable {link : Link} {address output position : UInt64} {size n : Nat}

theorem displacement_independent (h : link.Independent) : calculateDisplacement size (output + position) (link.resolved output) =
    calculateDisplacement size (address + position) (link.resolved address) := by
  rcases link with target | ⟨_ | _, offset | target⟩
  · cases h
  · cases h
  · rfl
  · show output + offset - (output + position + UInt64.ofNat size) =
      address + offset - (address + position + UInt64.ofNat size)
    grind
  · cases h

/-- A relative displacement to something that stays changes by the distance. -/
theorem displacement_stays {target : UInt64} :
    calculateDisplacement size (output + position) ⟨target, true⟩ =
      calculateDisplacement size (address + position) ⟨target, true⟩ + (address - output) := by
  show target - (output + position + UInt64.ofNat size) =
    target - (address + position + UInt64.ofNat size) + (address - output)
  grind

theorem leBytes_succ_ne (hn : 0 < n) (v : UInt64) : leBytes n (v + 1).toNat ≠ leBytes n v.toNat := by
  obtain ⟨n, rfl⟩ := Nat.exists_eq_add_of_le' hn
  intro h
  have hmod := congrArg leNat h
  rw [leNat_leBytes, leNat_leBytes, UInt64.toNat_add] at hmod
  have hdvd : 256 ∣ 256 ^ (n + 1) := Dvd.intro_left _ (pow_succ 256 n).symm
  have hbyte := congrArg (· % 256) hmod
  simp only [Nat.mod_mod_of_dvd _ hdvd] at hbyte
  have hone : (1 : UInt64).toNat = 1 := rfl
  omega

/-- The bytes are the same at all addresses exactly when the displacement does not depend on them. -/
theorem independent_iff (hn : 0 < n) : (∀ output,
      leBytes n (calculateDisplacement size (address + position) (link.resolved address)).toNat =
        leBytes n (calculateDisplacement size (output + position) (link.resolved output)).toNat) ↔ link.Independent := by
  constructor
  · intro h
    have hstays : ∀ target : UInt64, link.resolved = (fun _ => ⟨target, true⟩) → False := by
      intro target hlink
      have hnext := h (address - 1)
      rw [hlink] at hnext
      rw [@displacement_stays address (address - 1)] at hnext
      have hdist : address - (address - 1) = 1 := by grind
      rw [hdist] at hnext
      exact leBytes_succ_ne hn _ hnext.symm
    rcases link with target | ⟨_ | _, offset | target⟩
    · exact hstays target rfl
    · have hnext := h (address + 1)
      have hmoves : calculateDisplacement size (address + 1 + position) (Link.resolved (.other false (.inside offset)) (address + 1)) =
          calculateDisplacement size (address + position) (Link.resolved (.other false (.inside offset)) address) + 1 := by
        show address + 1 + offset = address + offset + 1
        grind
      rw [hmoves] at hnext
      exact leBytes_succ_ne hn _ hnext.symm
    · trivial
    · trivial
    · exact hstays target rfl
  · intro h output
    rw [displacement_independent h]

end Displacements

/-! ## Exactness -/

section Exact

variable {address : UInt64} {position : Nat}

/-- The bytes of a linked instruction, at all addresses. -/
theorem linked_written_iff (l : LinkedSemantic) {link : Link} (hlink : l.link = some link) :
    (∀ output, l.written (address + UInt64.ofNat position) (l.resolved address) =
      l.written (output + UInt64.ofNat position) (l.resolved output)) ↔ link.Independent := by
  have hpos : 0 < l.displacementSize := l.size_pos (Option.isSome_of_mem hlink)
  have hresolved : ∀ function, l.resolved function = link.resolved function := fun function => by
    rw [LinkedSemantic.resolved, hlink]
    rfl
  simp only [hresolved]
  rw [← @independent_iff link address (UInt64.ofNat position) l.bytes.length _ hpos]
  refine forall_congr' fun output => ⟨fun h => ?_, fun h => ?_⟩
  · exact setAt_inj (Nat.le_of_add_right_le l.inside) (by rw [length_leBytes, length_leBytes]) h
  · rw [LinkedInstructionBase.written, h]
    rfl

theorem independent_not_dataOffset {link : Link} (h : link.Independent) : ¬ link.IsDataOffset := by
  rcases link with target | ⟨relative, target⟩
  · exact h.elim
  · exact not_false

/-- A fixup gives the displacement of the new address. -/
theorem fixed_dataOffset (l : LinkedSemantic) {target : UInt64} (hlink : l.link = some (.dataOffset target))
    (output : UInt64) : (Semantic.linked l).fixed address output position =
      (Semantic.linked l).written output (output + UInt64.ofNat position) := by
  have hsize : l.displacementSize = 4 := l.relative _ hlink rfl
  have hle : l.displacementOffset ≤ l.bytes.length := Nat.le_of_add_right_le l.inside
  have hresolved : ∀ function, l.resolved function = ⟨target, true⟩ := fun function => by
    rw [LinkedSemantic.resolved, hlink]
    rfl
  have hfixup : (Semantic.linked l).fixup = some l.displacementOffset := by
    rw [Semantic.fixup, hlink]
    rfl
  simp only [Semantic.fixed, hfixup, Semantic.written, hresolved, LinkedInstructionBase.written, hsize, fixedWord]
  have hfour : ∀ v, (leBytes 4 v).length = 4 := length_leBytes 4
  have htake := fun v => @take_drop_setAt _ l.displacementOffset l.bytes (leBytes 4 v) hle
  simp only [hfour] at htake
  rw [setAt_setAt hle (by rw [hfour, hfour]), htake, leNat_leBytes,
    @displacement_stays address output (UInt64.ofNat position)]
  congr 1
  rw [← leBytes_mod, ← leBytes_mod 4 (_ + (address - output)).toNat]
  congr 1
  rw [UInt32.toNat_add, UInt32.toNat_ofNat', UInt64.toNat_toUInt32, UInt64.toNat_add]
  omega

/-- The copy of an instruction is right at all addresses exactly when it is covered. -/
theorem fixed_iff (s : Semantic) (address : UInt64) (position : Nat) :
    (s.Makes ∧ ∀ output, s.fixed address output position = s.written output (output + UInt64.ofNat position)) ↔
      s.Covered := by
  cases s with
  | isolated bytes => exact iff_of_true ⟨trivial, fun _ => rfl⟩ trivial
  | linked l =>
    rcases hlink : l.link with _ | target | ⟨relative, target⟩
    · simp [Semantic.Makes, Semantic.Covered, Semantic.fixed, Semantic.fixup, Semantic.written, hlink, LinkedSemantic.resolved,
        LinkedInstructionBase.written, calculateDisplacement]
    · refine iff_of_true ⟨trivial, fixed_dataOffset l hlink⟩ fun link hmem => .inr ?_
      obtain rfl := Option.mem_unique hlink hmem
      trivial
    · have hfixup : (Semantic.linked l).fixup = none := by
        rw [Semantic.fixup, hlink]
        rfl
      have hiff := @linked_written_iff address position l _ hlink
      simp only [Semantic.Makes, Semantic.Covered, Semantic.fixed, hfixup, Semantic.written, hlink, true_and, hiff,
        Option.mem_some_iff, forall_eq', Link.IsDataOffset, or_false]
  | dataLinked l =>
    rcases hlink : l.link with _ | link
    · simp [Semantic.Makes, Semantic.Covered, Semantic.fixed, Semantic.fixup, Semantic.written, hlink, LinkedSemantic.resolved,
        LinkedInstructionBase.written, calculateDisplacement]
    · have hiff := @linked_written_iff address position l _ hlink
      simp only [Semantic.Makes, Semantic.Covered, Semantic.fixed, Semantic.fixup, Semantic.written, hlink, hiff,
        Option.mem_some_iff, forall_eq']
      exact and_iff_right_of_imp independent_not_dataOffset
  | controlFlow cf =>
    have hiff := @independent_iff cf.link address (UInt64.ofNat position) cf.getSize _ cf.size_pos
    simp only [Semantic.Makes, Semantic.Covered, Semantic.fixed, Semantic.fixup, Semantic.written,
      ControlFlowInstructionBase.written, List.append_cancel_left_eq, hiff]
    exact and_iff_right_of_imp independent_not_dataOffset

theorem fixedCode_iff (address : UInt64) (position : Nat) (l : List Semantic) :
    ((∀ s ∈ l, s.Makes) ∧ ∀ output, fixedCode address output position l = code output position l) ↔
      ∀ s ∈ l, s.Covered := by
  induction l generalizing position with
  | nil => exact iff_of_true ⟨fun _ h => (nomatch h), fun _ => rfl⟩ fun _ h => nomatch h
  | cons s l ih =>
    rw [List.forall_mem_cons, List.forall_mem_cons, ← ih (position + s.getSize), ← fixed_iff s address position]
    have happend : ∀ output, fixedCode address output position (s :: l) = code output position (s :: l) ↔
        s.fixed address output position = s.written output (output + UInt64.ofNat position) ∧
          fixedCode address output (position + s.getSize) l = code output (position + s.getSize) l := by
      intro output
      refine ⟨fun h => List.append_inj h ?_, fun ⟨h₁, h₂⟩ => ?_⟩
      · rw [s.length_fixed, s.length_written]
      · rw [fixedCode, code, h₁, h₂]
    simp only [happend, forall_and]
    exact and_and_and_comm

theorem length_code (function : UInt64) (position : Nat) (l : List Semantic) :
    (code function position l).length = (l.map Semantic.getSize).sum := by
  induction l generalizing position with
  | nil => rfl
  | cons s l ih => rw [code, List.length_append, s.length_written, ih, List.map_cons, List.sum_cons]

theorem length_fixedCode (address output : UInt64) (position : Nat) (l : List Semantic) :
    (fixedCode address output position l).length = (l.map Semantic.getSize).sum := by
  induction l generalizing position with
  | nil => rfl
  | cons s l ih => rw [fixedCode, List.length_append, s.length_fixed, ih, List.map_cons, List.sum_cons]

/-- There is a cache, and copies of it are the regenerated code at all addresses, exactly when all instructions are
covered. -/
theorem copyAndFix_exact_iff (address : UInt64) (function : Function) :
    (∃ cache, make address function = some cache ∧
      ∀ output mem, copyAndFix cache output mem = regenerate function output mem) ↔
    ∀ s ∈ function.flatten, s.Covered := by
  rw [← fixedCode_iff address 0]
  obtain ⟨hok, hfail⟩ := make_eq address function
  have hcopy : ∀ output, (∀ mem, copyAndFix ⟨address, code address 0 function.flatten, fixups 0 function.flatten⟩ output mem =
      regenerate function output mem) ↔
        fixedCode address output 0 function.flatten = code output 0 function.flatten := by
    intro output
    simp only [copyAndFix_eq, regenerate_eq]
    exact ⟨copyTo_inj (by rw [length_fixedCode, length_code]), fun h _ => by rw [h]⟩
  constructor
  · rintro ⟨cache, hmake, hall⟩
    have hmakes : ∀ s ∈ function.flatten, s.Makes := by
      by_contra hne
      push Not at hne
      rw [hfail hne] at hmake
      cases hmake
    rw [hok hmakes, Option.some.injEq] at hmake
    subst hmake
    exact ⟨hmakes, fun output => (hcopy output).1 (hall output)⟩
  · rintro ⟨hmakes, hall⟩
    exact ⟨_, hok hmakes, fun output => (hcopy output).2 (hall output)⟩

end Exact

/-! ### `lea _end(%rip), %rax` -/

/-- Its link is a `MarkerLink`. -/
def leaEnd : LinkedSemantic where
  bytes := [0x48, 0x8d, 0x05, 0, 0, 0, 0]
  displacementSize := 4
  displacementOffset := 3
  link := some (.other true (.elsewhere 0x404000))
  inside := by decide
  size_pos _ := by decide
  relative _ _ _ := rfl

/-- No fixup is made for it, and its copy refers to another address. -/
theorem marker_not_fixed : ∃ cache, make 0x401000 [[.linked leaEnd]] = some cache ∧ cache.fixups = [] ∧
    copyAndFix cache 0x501000 (fun _ => 0) 0x501005 = 0 ∧
      regenerate [[.linked leaEnd]] 0x501000 (fun _ => 0) 0x501005 = 0xf0 :=
  ⟨_, rfl, rfl, by decide, by decide⟩

end Egalito.ChunkCache
