import Egalito.Dwarf.Walk
import Mathlib.Data.BitVec
/-!
# The range of an FDE

What the pointer encoding of a CIE says the first two fields of its FDEs are,
and when `parseFDE` stores that. The parser reads a mapped copy of the section,
and adds the distance to its virtual address under every encoding.
-/

open Egalito.Lib

namespace Egalito.Dwarf

/-- The data formats of a fixed size. -/
inductive PointerFormat
  | absptr | udata2 | udata4 | udata8 | sdata2 | sdata4 | sdata8
deriving DecidableEq

inductive PointerApplication
  | absolute | pcrel
deriving DecidableEq

structure PointerEncoding where
  application : PointerApplication
  format : PointerFormat
deriving DecidableEq

namespace PointerFormat

def code : PointerFormat → BitVec 64
  | absptr => 0x00
  | udata2 => 0x02
  | udata4 => 0x03
  | udata8 => 0x04
  | sdata2 => 0x0a
  | sdata4 => 0x0b
  | sdata8 => 0x0c

def size : PointerFormat → Nat
  | udata2 | sdata2 => 2
  | udata4 | sdata4 => 4
  | absptr | udata8 | sdata8 => 8

def signed : PointerFormat → Bool
  | sdata2 | sdata4 | sdata8 => true
  | absptr | udata2 | udata4 | udata8 => false

/-- The number that bytes with the unsigned value `v` stand for. -/
def value (format : PointerFormat) (v : Nat) : BitVec 64 :=
  if format.signed then (BitVec.ofNat (8 * format.size) v).signExtend 64 else BitVec.ofNat 64 v

end PointerFormat

namespace PointerEncoding

def code (e : PointerEncoding) : BitVec 64 :=
  match e.application with
  | .absolute => e.format.code
  | .pcrel => 0x10 ||| e.format.code

/-- The virtual address that a field at the offset `p` denotes. -/
def denotes (f : EhFrame) (e : PointerEncoding) (p v : Nat) : BitVec 64 :=
  match e.application with
  | .absolute => e.format.value v
  | .pcrel => f.virtualAddress + BitVec.ofNat 64 p + e.format.value v

end PointerEncoding

variable {f : EhFrame} {pre post : List UInt8} {start : Address} {v : Nat}

/-! ## One pointer -/

theorem next_written {n : Nat} (hb : f.bytes = pre ++ (leBytes n v ++ post)) (hv : v < 256 ^ n) :
    (next f n).run ⟨start, f.place pre.length⟩ = some (BitVec.ofNat 64 v, ⟨start, f.place (pre.length + n)⟩) := by
  rw [next_run, EhFrame.read_written hb hv, Option.map_some, EhFrame.place_add]

theorem nextSigned_written {n : Nat} (hb : f.bytes = pre ++ (leBytes n v ++ post)) (hv : v < 256 ^ n) (hn : n ≤ 8) :
    (nextSigned f n).run ⟨start, f.place pre.length⟩ =
      some ((BitVec.ofNat (8 * n) v).signExtend 64, ⟨start, f.place (pre.length + n)⟩) := by
  rw [nextSigned, StateT.run_bind, next_written hb hv, Option.bind_eq_bind, Option.bind_some,
    BitVec.setWidth_ofNat_of_le (by omega)]
  rfl

/-- The branch of the second `switch`. -/
def PointerFormat.next (f : EhFrame) (format : PointerFormat) : CursorM (BitVec 64) :=
  if format.signed then nextSigned f format.size else Dwarf.next f format.size

theorem PointerFormat.next_written {format : PointerFormat} (hb : f.bytes = pre ++ (leBytes format.size v ++ post))
    (hv : v < 256 ^ format.size) :
    (format.next f).run ⟨start, f.place pre.length⟩ =
      some (format.value v, ⟨start, f.place (pre.length + format.size)⟩) := by
  unfold PointerFormat.next PointerFormat.value
  split
  · exact nextSigned_written hb hv (by cases format <;> decide)
  · exact Dwarf.next_written hb hv

theorem nextEncodedPointer_code (f : EhFrame) (e : PointerEncoding) : nextEncodedPointer f e.code = (do
    let base ← if e.application = .pcrel then (·.cursor) <$> get else pure 0
    let value ← e.format.next f
    return base + value) := by
  obtain ⟨application, format⟩ := e
  cases application <;> cases format <;> rfl

/-- The pointer is the value, for a PC-relative one from the mapped address of the field on. -/
theorem nextEncodedPointer_written (start : Address) (e : PointerEncoding) (hb : f.bytes = pre ++ (leBytes e.format.size v ++ post))
    (hv : v < 256 ^ e.format.size) :
    (nextEncodedPointer f e.code).run ⟨start, f.place pre.length⟩ =
      some ((if e.application = .pcrel then f.place pre.length else 0) + e.format.value v,
        ⟨start, f.place (pre.length + e.format.size)⟩) := by
  rw [nextEncodedPointer_code]
  split <;> simp [PointerFormat.next_written hb hv]

/-- The encoding without its application. -/
theorem code_and_format (e : PointerEncoding) : e.code &&& 0x0f = PointerEncoding.code ⟨.absolute, e.format⟩ := by
  obtain ⟨application, format⟩ := e
  cases application <;> cases format <;> rfl

/-! ## The fields of an FDE -/

/-- The pointer encoding of a CIE: without an augmentation, pointers are absolute. -/
def cieEncoding (augmentation : Option CIEAugmentation) : BitVec 64 :=
  match augmentation with
  | some augmentation => augmentation.codeEnc
  | none => 0

/-- The augmentation data of an FDE lies in the section. -/
def AugmentationReadable (f : EhFrame) (augmentation : Option CIEAugmentation) (c : DwarfCursor) : Prop :=
  ∀ a, augmentation = some a → ((do
    let _ ← nextUleb128 f
    nextEncodedPointer f a.lsdaEnc).run c).isSome

/-- An FDE whose range is written at the offset of `pre`, under a CIE of the list. -/
structure FDEWritten (f : EhFrame) (info : DwarfUnwindInfo) (pre post : List UInt8) (start : Address) (index : Nat)
    (cie : DwarfCIE) (e : PointerEncoding) (v r : Nat) : Prop where
  listed : info.cieList[index]? = some cie
  encoding : cieEncoding cie.augmentation = e.code
  bytes : f.bytes = pre ++ (leBytes e.format.size v ++ (leBytes e.format.size r ++ post))
  value : v < 256 ^ e.format.size
  range : r < 256 ^ e.format.size
  readable : AugmentationReadable f cie.augmentation ⟨start, f.place (pre.length + e.format.size + e.format.size)⟩

section Fields

variable {info : DwarfUnwindInfo} {index : Nat} {cie : DwarfCIE} {e : PointerEncoding} {r : Nat}
  {a : CIEAugmentation}

/-- The start is moved by the distance between the section and its copy. -/
def storedBegin (f : EhFrame) (e : PointerEncoding) (p v : Nat) : BitVec 64 :=
  (if e.application = .pcrel then f.place p else 0) + e.format.value v + f.virtualAddress - f.readAddress

theorem readFDE_written (h : FDEWritten f info pre post start index cie e v r) (ha : cie.augmentation = some a)
    (length entryID : BitVec 64) :
    ∃ fde, readFDE f ⟨start, f.place pre.length⟩ length index entryID (some a) = some fde ∧
      fde.pcBegin = storedBegin f e pre.length v ∧ fde.pcRange = e.format.value r := by
  have hcode : a.codeEnc = e.code := by
    have := h.encoding
    rwa [ha] at this
  have hbytes : f.bytes = (pre ++ leBytes e.format.size v) ++ (leBytes e.format.size r ++ post) := by
    rw [h.bytes, List.append_assoc]
  have hrange := nextEncodedPointer_written start ⟨.absolute, e.format⟩ hbytes h.range
  rw [List.length_append, length_leBytes] at hrange
  obtain ⟨⟨lsda, c⟩, hlsda⟩ := Option.isSome_iff_exists.1 (h.readable a ha)
  rw [StateT.run_bind, Option.bind_eq_bind, Option.bind_eq_some_iff] at hlsda
  obtain ⟨⟨skipped, c'⟩, hskip, hlsda⟩ := hlsda
  simp only [readFDE, parseFDEFields, StateT.run_bind, hcode, nextEncodedPointer_written start e h.bytes h.value,
    code_and_format, Option.bind_eq_bind, Option.bind_some]
  rw [hrange]
  simp only [Option.bind_some, hskip, hlsda]
  exact ⟨_, rfl, rfl, by simp⟩

/-- The distance belongs to the PC-relative forms only. -/
theorem storedBegin_eq_iff (f : EhFrame) (e : PointerEncoding) (p v : Nat) :
    storedBegin f e p v = e.denotes f p v ↔ e.application = .pcrel ∨ f.virtualAddress = f.readAddress := by
  unfold storedBegin PointerEncoding.denotes EhFrame.place
  obtain ⟨application, format⟩ := e
  cases application with
  | absolute =>
    simp only [reduceCtorEq, if_false, false_or]
    constructor
    · intro h
      linear_combination h
    · intro h
      linear_combination h
  | pcrel =>
    simp only [if_true, true_or, iff_true]
    ring

/-- The range of an FDE is stored as its encoding says exactly when the CIE has an augmentation, and the
encoding is PC-relative or the section is mapped at its own address. -/
theorem fde_range_exact_iff (h : FDEWritten f info pre post start index cie e v r) (length entryID : BitVec 64) :
    (∃ fde, parseFDE f info ⟨start, f.place pre.length⟩ length index entryID = some fde ∧
        fde.pcBegin = e.denotes f pre.length v ∧ fde.pcRange = e.format.value r) ↔
      cie.augmentation.isSome ∧ (e.application = .pcrel ∨ f.virtualAddress = f.readAddress) := by
  rw [parseFDE_eq h.listed]
  cases ha : cie.augmentation with
  | none => simp
  | some a =>
    obtain ⟨fde, hfde, hbegin, hrange⟩ := readFDE_written h ha length entryID
    rw [← storedBegin_eq_iff f e pre.length v, ← hbegin]
    simp [hfde, hrange]

end Fields

/-- A CIE with this pointer encoding, and no LSDA. -/
def sampleCIE (e : PointerEncoding) : DwarfCIE where
  codeAlignFactor := 1
  dataAlignFactor := -8
  augmentation := some { CIEAugmentation.default with codeEnc := e.code }
  startAddress := 0x1000
  length := 20
  index := 0
  retAddressReg := 16
  state := .empty

def sampleInfo (e : PointerEncoding) : DwarfUnwindInfo := { DwarfUnwindInfo.empty with cieList := [sampleCIE e] }

/-- The fields of an FDE, its augmentation data being empty. -/
def sampleFDE (bytes : List UInt8) (h : bytes.length < 100) : EhFrame :=
  ⟨0x1000, 0x400000, bytes, by rw [show (0x1000 : Address).toNat = 4096 from rfl]; omega⟩

/-- The range from -16 to 16, relative to the field. -/
def relativeFDE : EhFrame := sampleFDE [0xf0, 0xff, 0xff, 0xff, 0x20, 0, 0, 0, 0] (by decide)

theorem relativeFDE_written : FDEWritten relativeFDE (sampleInfo ⟨.pcrel, .sdata4⟩) [] [0] 0x1000 0
    (sampleCIE ⟨.pcrel, .sdata4⟩) ⟨.pcrel, .sdata4⟩ 0xfffffff0 0x20 where
  listed := rfl
  encoding := rfl
  bytes := rfl
  value := by decide
  range := by decide
  readable := by
    rintro a ⟨⟩
    decide

theorem relativeFDE_exact :
    ∃ fde, parseFDE relativeFDE (sampleInfo ⟨.pcrel, .sdata4⟩) ⟨0x1000, relativeFDE.place 0⟩ 9 0 24 = some fde ∧
      fde.pcBegin = PointerEncoding.denotes relativeFDE ⟨.pcrel, .sdata4⟩ 0 0xfffffff0 ∧ fde.pcRange = 0x20 :=
  (fde_range_exact_iff relativeFDE_written 9 24).2 ⟨rfl, .inl rfl⟩

/-- The absolute range from 0x401000 on. -/
def absoluteFDE : EhFrame := sampleFDE [0, 0x10, 0x40, 0, 0x20, 0, 0, 0, 0] (by decide)

/-- An absolute start is moved to another address. -/
theorem absoluteFDE_moved :
    FDEWritten absoluteFDE (sampleInfo ⟨.absolute, .udata4⟩) [] [0] 0x1000 0 (sampleCIE ⟨.absolute, .udata4⟩)
      ⟨.absolute, .udata4⟩ 0x401000 0x20 ∧
    PointerEncoding.denotes absoluteFDE ⟨.absolute, .udata4⟩ 0 0x401000 = 0x401000 ∧
    (parseFDE absoluteFDE (sampleInfo ⟨.absolute, .udata4⟩) ⟨0x1000, absoluteFDE.place 0⟩ 9 0 24).map (·.pcBegin) =
      some 0x800000 := by
  refine ⟨⟨rfl, rfl, rfl, by decide, by decide, ?_⟩, rfl, by decide⟩
  rintro a ⟨⟩
  decide

end Egalito.Dwarf
