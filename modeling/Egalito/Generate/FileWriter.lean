import Egalito.Generate.SectionList
import Egalito.Lib.Stream
import Mathlib
/-!
# Writing the file

`ElfFileWriter` gives every section an offset and then writes the sections one
after the other. The size of a page padding comes from the offset and the size
of the section that was the last one when the padding was made.
-/

open Egalito.Lib

namespace Egalito.Generate

/-- `getSize`; the size of a list is its count times the size of its first value. -/
def PlainValue.getSize : PlainValue → Nat
  | impl (n := n) _ => n
  | list (n := n) valueList => if valueList.length = 0 then 0 else valueList.length * n
  | string value => value.length
  | initArray array => array.length * 8

def PlainValue.writeTo (offsets : Offsets) : PlainValue → List UInt8
  | impl value => value.writeTo offsets
  | list valueList => valueList.flatMap (DeferredValueImpl.writeTo offsets)
  | string value => value
  | initArray array => array.flatMap fun func => leBytes 8 (func offsets).toNat

/-- The size of a padding behind `lastByte`. -/
def paddingSize (lastByte desiredOffset : BitVec 64) (isIsolatedPadding : Bool) : BitVec 64 :=
  if isIsolatedPadding then
    let roundToPageBoundary := ((lastByte + 0x1000 - 1) &&& ~~~(0x1000 - 1)) - lastByte
    (roundToPageBoundary + desiredOffset) &&& (0x1000 - 1)
  else (desiredOffset - (lastByte &&& (0x1000 - 1)) + 0x1000) &&& (0x1000 - 1)

section Writer

variable (obj : SectionPtr → Section)

/-- `getSize`. A padding asks the section before it, which may be a padding again; `none` is
a chain of paddings longer than `fuel`. -/
def getSize (offsets : Offsets) : Nat → DeferredValue → Option (BitVec 64)
  | _, .plain value => some (BitVec.ofNat 64 value.getSize)
  | 0, .pagePadding _ _ _ => none
  | fuel + 1, .pagePadding previousSection desiredOffset isIsolatedPadding => do
    let lastByte ← match (obj previousSection).content with
      | some content => (offsets previousSection + ·) <$> getSize offsets fuel content
      | none => some (offsets previousSection)
    return paddingSize lastByte desiredOffset isIsolatedPadding

/-- The loop over the sections, with the next offset; a section without content is a null
pointer that is followed. -/
def updateOffsets (fuel : Nat) : List SectionPtr → Offsets → BitVec 64 → Option Offsets
  | [], offsets, _ => some offsets
  | p :: ps, offsets, offset => do
    let offsets := Function.update offsets p offset
    let size ← getSize obj offsets fuel (← (obj p).content)
    updateOffsets fuel ps offsets (offset + size)

def writeTo (offsets : Offsets) (fuel : Nat) : DeferredValue → Option (List UInt8)
  | .plain value => some (value.writeTo offsets)
  | padding => do return List.replicate (← getSize obj offsets fuel padding).toNat 0

/-- `operator <<` of a section. -/
def writeSection (offsets : Offsets) (fuel : Nat) (p : SectionPtr) : Option (List UInt8) :=
  match (obj p).content with
  | some content => writeTo obj offsets fuel content
  | none => some []

/-- The bytes of the opened file. -/
def serialize (offsets : Offsets) (fuel : Nat) : List SectionPtr → Option (List UInt8)
  | [] => some []
  | p :: ps => do return (← writeSection obj offsets fuel p) ++ (← serialize offsets fuel ps)

end Writer

/-! ## Making the list of sections -/

/-- The sections with their list. -/
structure Output where
  obj : SectionPtr → Section
  list : SectionList

/-- The calls that put sections into the list. The pointer of a new section is given. -/
inductive OutputCall
  | addSection (p : SectionPtr) (name : String) (hasHeader : Bool) (content : Option PlainValue)
  | setContent (p : SectionPtr) (content : PlainValue)
  | makePaddingSection (p : SectionPtr) (desiredAlignment : BitVec 64) (isIsolatedPadding : Bool)

namespace Output

/-- `addSection(new Section)`: a new object has an address of its own. -/
def addNew (out : Output) (p : SectionPtr) (sec : Section) : Option Output :=
  if p ∈ out.list.sections then none
  else
    let obj := Function.update out.obj p sec
    some ⟨obj, out.list.addSection obj p⟩

/-- The padding is made for the last section, `sections.back()`. -/
def run (out : Output) : OutputCall → Option Output
  | .addSection p name hasHeader content => out.addNew p ⟨name, hasHeader, content.map .plain⟩
  | .setContent p content =>
    some { out with obj := Function.update out.obj p { out.obj p with content := some (.plain content) } }
  | .makePaddingSection p desiredAlignment isIsolatedPadding => do
    let back ← out.list.sections.getLast?
    out.addNew p ⟨if isIsolatedPadding then "=padding" else "=intra-padding", false,
      some (.pagePadding back desiredAlignment isIsolatedPadding)⟩

def empty : Output := ⟨fun _ => ⟨"", false, none⟩, .empty⟩

def runAll (calls : List OutputCall) : Option Output := calls.foldlM run empty

end Output

/-! ## Paddings stand behind their section -/

/-- A padding of the list was made for the section right before it. -/
def PaddingsBehind (obj : SectionPtr → Section) (sections : List SectionPtr) : Prop :=
  ∀ before p after, sections = before ++ p :: after → ∀ previous desiredOffset isIsolatedPadding,
    (obj p).content = some (.pagePadding previous desiredOffset isIsolatedPadding) →
    before.getLast? = some previous

namespace Output

structure Wf (out : Output) : Prop where
  nodup : out.list.sections.Nodup
  paddings : PaddingsBehind out.obj out.list.sections

theorem Wf.addNew {out out' : Output} (h : out.Wf) {p : SectionPtr} {sec : Section}
    (hbehind : ∀ previous desiredOffset isIsolatedPadding,
      sec.content = some (.pagePadding previous desiredOffset isIsolatedPadding) →
      out.list.sections.getLast? = some previous)
    (hrun : out.addNew p sec = some out') : out'.Wf := by
  unfold Output.addNew at hrun
  split at hrun
  case isTrue => cases hrun
  case isFalse hp =>
    cases hrun
    refine ⟨?_, ?_⟩ <;> simp only [SectionList.addSection_sections]
    · rw [List.nodup_append_comm]
      exact List.nodup_cons.2 ⟨hp, h.nodup⟩
    · intro before q after hsplit previous desiredOffset isIsolatedPadding hq
      rcases concat_eq_middle hsplit with ⟨rfl, rfl⟩ | ⟨after', hold⟩
      · rw [Function.update_self] at hq
        exact hbehind previous desiredOffset isIsolatedPadding hq
      · have hne : q ≠ p := fun he => hp (by rw [hold, he]; simp)
        rw [Function.update_of_ne hne] at hq
        exact h.paddings before q after' hold previous desiredOffset isIsolatedPadding hq

theorem Wf.run {out out' : Output} (h : out.Wf) {call : OutputCall} (hrun : out.run call = some out') : out'.Wf := by
  cases call with
  | addSection p name hasHeader content =>
    refine h.addNew (fun previous desiredOffset isIsolatedPadding hc => ?_) hrun
    cases content <;> simp at hc
  | setContent p content =>
    cases hrun
    refine ⟨h.nodup, fun before q after hsplit previous desiredOffset isIsolatedPadding hq => ?_⟩
    by_cases hqp : q = p
    · simp [hqp] at hq
    · simp only [Function.update_of_ne hqp] at hq
      exact h.paddings before q after hsplit previous desiredOffset isIsolatedPadding hq
  | makePaddingSection p desiredAlignment isIsolatedPadding =>
    simp only [Output.run, Option.bind_eq_bind, Option.bind_eq_some_iff] at hrun
    obtain ⟨back, hback, hrun⟩ := hrun
    refine h.addNew (fun previous desiredOffset isIsolatedPadding hc => ?_) hrun
    simp only [Option.some.injEq, DeferredValue.pagePadding.injEq] at hc
    rw [hback, hc.1]

theorem wf_runAll {calls : List OutputCall} {out : Output} (hrun : runAll calls = some out) : out.Wf := by
  have hempty : empty.Wf := ⟨List.nodup_nil, fun before p after h => by simp [empty, SectionList.empty] at h⟩
  exact foldlM_invariant Wf (P := fun _ _ => True) (fun _ _ _ h _ => h.run) hempty
    (along_of_forall (fun _ _ => trivial) _ _) hrun

end Output

/-! ## Sizes and offsets -/

section Layout

variable (obj : SectionPtr → Section)

/-- The size of a section that starts at `offset`. -/
def sizeAt (offset : BitVec 64) : Option DeferredValue → BitVec 64
  | some (.plain value) => BitVec.ofNat 64 value.getSize
  | some (.pagePadding _ desiredOffset isIsolatedPadding) => paddingSize offset desiredOffset isIsolatedPadding
  | none => 0

/-- Where the sections end that start at `offset`. -/
def endOf (offset : BitVec 64) (sections : List SectionPtr) : BitVec 64 :=
  sections.foldl (fun offset p => offset + sizeAt offset (obj p).content) offset

theorem endOf_concat (offset : BitVec 64) (sections : List SectionPtr) (p : SectionPtr) :
    endOf obj offset (sections ++ [p]) =
      endOf obj offset sections + sizeAt (endOf obj offset sections) (obj p).content := by
  rw [endOf, List.foldl_append]
  rfl

variable {obj}

/-- A section asks for the offsets of earlier sections only. -/
theorem getSize_eq {sections : List SectionPtr} (hpad : PaddingsBehind obj sections)
    (hcontent : ∀ p ∈ sections, (obj p).content.isSome = true) {offsets : Offsets}
    {before : List SectionPtr} {p : SectionPtr} {after : List SectionPtr} (hsplit : sections = before ++ p :: after)
    (hoffsets : ∀ b q a, before = b ++ q :: a → offsets q = endOf obj 0 b)
    {fuel : Nat} (hfuel : before.length < fuel) {content : DeferredValue} (hp : (obj p).content = some content) :
    getSize obj offsets fuel content = some (sizeAt (endOf obj 0 before) (obj p).content) := by
  induction before using List.reverseRecOn generalizing p after fuel content with
  | nil =>
    cases content with
    | plain value => rw [hp, getSize]; rfl
    | pagePadding previous desiredOffset isIsolatedPadding =>
      have := hpad [] p after hsplit previous desiredOffset isIsolatedPadding hp
      simp at this
  | append_singleton before q ih =>
    cases content with
    | plain value => rw [hp, getSize]; rfl
    | pagePadding previous desiredOffset isIsolatedPadding =>
      have hlast := hpad _ p after hsplit previous desiredOffset isIsolatedPadding hp
      obtain rfl : q = previous := by simpa using hlast
      have hsplit' : sections = before ++ q :: (p :: after) := by rw [hsplit, List.append_assoc]; rfl
      obtain ⟨c, hc⟩ := Option.isSome_iff_exists.1 (hcontent q (by rw [hsplit']; simp))
      obtain ⟨fuel, rfl⟩ : ∃ n, fuel = n + 1 := ⟨fuel - 1, by omega⟩
      rw [List.length_append, List.length_singleton, Nat.add_lt_add_iff_right] at hfuel
      have hsize := ih hsplit' (fun b r a hb => hoffsets b r (a ++ [q]) (by rw [hb, List.append_assoc]; rfl)) hfuel hc
      have hoff := hoffsets before q [] rfl
      rw [getSize, hc]
      simp only [hsize, hoff, hp, endOf_concat]
      rfl

/-- The loop leaves every section at the end of the sections before it. -/
theorem updateOffsets_eq {sections : List SectionPtr} (hnodup : sections.Nodup) (hpad : PaddingsBehind obj sections)
    (hcontent : ∀ p ∈ sections, (obj p).content.isSome = true) {fuel : Nat} (hfuel : sections.length ≤ fuel)
    (start : Offsets) : ∃ offsets, updateOffsets obj fuel sections start 0 = some offsets ∧
      ∀ b q a, sections = b ++ q :: a → offsets q = endOf obj 0 b := by
  suffices ∀ rest done offsets, sections = done ++ rest → (∀ b q a, done = b ++ q :: a → offsets q = endOf obj 0 b) →
      ∃ offsets', updateOffsets obj fuel rest offsets (endOf obj 0 done) = some offsets' ∧
        ∀ b q a, sections = b ++ q :: a → offsets' q = endOf obj 0 b from
    this sections [] start rfl fun b q a h => by simp at h
  intro rest
  induction rest with
  | nil =>
    intro done offsets hsections hdone
    rw [List.append_nil] at hsections
    exact ⟨offsets, rfl, hsections ▸ hdone⟩
  | cons p rest ih =>
    intro done offsets hsections hdone
    have hp : p ∉ done := fun hp => by
      rw [hsections] at hnodup
      exact List.disjoint_of_nodup_append hnodup hp List.mem_cons_self
    obtain ⟨content, hcp⟩ := Option.isSome_iff_exists.1 (hcontent p (by rw [hsections]; simp))
    have hdone' : ∀ b q a, done ++ [p] = b ++ q :: a →
        Function.update offsets p (endOf obj 0 done) q = endOf obj 0 b := fun b q a hb => by
      rcases concat_eq_middle hb with ⟨rfl, rfl⟩ | ⟨a', hold⟩
      · rw [Function.update_self]
      · have hne : q ≠ p := fun he => hp (by rw [hold, he]; simp)
        rw [Function.update_of_ne hne]
        exact hdone b q a' hold
    have hlen : done.length < fuel := by
      rw [hsections, List.length_append, List.length_cons] at hfuel
      omega
    have hsize := getSize_eq hpad hcontent hsections
      (fun b q a hb => hdone' b q (a ++ [p]) (by rw [hb, List.append_assoc]; rfl)) hlen hcp
    obtain ⟨offsets', hrun, hoffsets'⟩ := ih (done ++ [p]) _ (by rw [hsections, List.append_assoc]; rfl) hdone'
    refine ⟨offsets', ?_, hoffsets'⟩
    rw [updateOffsets, hcp]
    simp only [Option.bind_eq_bind, Option.bind_some]
    rw [hsize, Option.bind_some, ← endOf_concat]
    exact hrun

/-! ## Alignment -/

theorem toNat_and_page (x : BitVec 64) : (x &&& (0x1000 - 1)).toNat = x.toNat % 0x1000 := by
  rw [BitVec.toNat_and]
  exact Nat.and_two_pow_sub_one_eq_mod x.toNat 12

/-- A padding brings the offset behind it to the desired place in a page. -/
theorem padding_aligns (offset desiredOffset : BitVec 64) (isIsolatedPadding : Bool) :
    (offset + paddingSize offset desiredOffset isIsolatedPadding).toNat % 0x1000 = desiredOffset.toNat % 0x1000 := by
  unfold paddingSize
  split
  · have hround : ((offset + 0x1000 - 1) &&& ~~~(0x1000 - 1) : BitVec 64).toNat % 0x1000 = 0 := by
      rw [← toNat_and_page, BitVec.and_assoc]
      simp
    generalize ((offset + 0x1000 - 1) &&& ~~~(0x1000 - 1) : BitVec 64) = round at hround
    rw [BitVec.toNat_add, toNat_and_page, BitVec.toNat_add, BitVec.toNat_sub]
    omega
  · rw [BitVec.toNat_add, toNat_and_page, BitVec.toNat_add, BitVec.toNat_sub, toNat_and_page]
    have h : (0x1000 : BitVec 64).toNat = 0x1000 := rfl
    omega

/-! ## The written file -/

theorem PlainValue.length_writeTo (offsets : Offsets) (value : PlainValue) :
    (value.writeTo offsets).length = value.getSize := by
  cases value with
  | impl value => simp [writeTo, getSize, DeferredValueImpl.writeTo]
  | list valueList =>
    simp only [writeTo, getSize, List.length_flatMap, DeferredValueImpl.writeTo, Vector.length_toList, List.map_const',
      List.sum_replicate, smul_eq_mul]
    split <;> simp_all
  | string value => rfl
  | initArray array =>
    simp [writeTo, getSize, List.length_flatMap, length_leBytes, List.map_const', List.sum_replicate]

/-- A section that is at the right place writes as many bytes as its size says. -/
theorem writeSection_eq {offsets : Offsets} {fuel : Nat} {p : SectionPtr} {content : DeferredValue} {size : BitVec 64}
    (hp : (obj p).content = some content) (hsize : getSize obj offsets fuel content = some size) :
    ∃ body, writeSection obj offsets fuel p = some body ∧ BitVec.ofNat 64 body.length = size := by
  unfold writeSection
  rw [hp]
  cases content with
  | plain value =>
    refine ⟨_, rfl, ?_⟩
    rw [PlainValue.length_writeTo]
    simpa only [getSize, Option.some.injEq] using hsize
  | pagePadding previous desiredOffset isIsolatedPadding =>
    refine ⟨List.replicate size.toNat 0, ?_, ?_⟩
    · simp only [writeTo, hsize]
      rfl
    · rw [List.length_replicate, BitVec.ofNat_toNat, BitVec.setWidth_eq]

theorem serialize_append {offsets : Offsets} {fuel : Nat} {ps qs : List SectionPtr} {front back : List UInt8}
    (hfront : serialize obj offsets fuel ps = some front) (hback : serialize obj offsets fuel qs = some back) :
    serialize obj offsets fuel (ps ++ qs) = some (front ++ back) := by
  induction ps generalizing front with
  | nil =>
    cases hfront
    exact hback
  | cons p ps ih =>
    simp only [serialize, Option.bind_eq_bind, Option.bind_eq_some_iff, Option.pure_def, Option.some.injEq] at hfront
    obtain ⟨body, hbody, rest, hrest, rfl⟩ := hfront
    simp only [List.cons_append, serialize, hbody, ih hrest, Option.bind_eq_bind, Option.bind_some, Option.pure_def,
      List.append_assoc]

variable (obj) in
/-- What the file has to look like: offsets are sums of sizes, a padding aligns the section
behind it, and the bytes of every section stand at its offset. -/
structure LaidOut (fuel : Nat) (offsets : Offsets) (sections : List SectionPtr) (bytes : List UInt8) : Prop where
  sums : ∃ size : SectionPtr → BitVec 64,
    (∀ p ∈ sections, ∀ content, (obj p).content = some content → getSize obj offsets fuel content = some (size p)) ∧
    ∀ before p after, sections = before ++ p :: after → offsets p = (before.map size).sum
  aligned : ∀ before q p after, sections = before ++ q :: p :: after → ∀ previous desiredOffset isIsolatedPadding,
    (obj q).content = some (.pagePadding previous desiredOffset isIsolatedPadding) →
    (offsets p).toNat % 0x1000 = desiredOffset.toNat % 0x1000
  written : ∀ before p after, sections = before ++ p :: after → ∃ front body back,
    bytes = front ++ body ++ back ∧ writeSection obj offsets fuel p = some body ∧
    offsets p = BitVec.ofNat 64 front.length ∧ (bytes.length < 2 ^ 64 → (offsets p).toNat = front.length)

variable (obj) in
/-- What `updateOffsets` leaves behind. -/
structure Settled (fuel : Nat) (offsets : Offsets) (sections : List SectionPtr) : Prop where
  offset : ∀ b q a, sections = b ++ q :: a → offsets q = endOf obj 0 b
  size : ∀ b q a, sections = b ++ q :: a → ∃ content, (obj q).content = some content ∧
    getSize obj offsets fuel content = some (sizeAt (endOf obj 0 b) (obj q).content)

namespace Settled

variable {fuel : Nat} {offsets : Offsets} {sections : List SectionPtr} (h : Settled obj fuel offsets sections)

include h

theorem body {b : List SectionPtr} {q : SectionPtr} {a : List SectionPtr} (hsplit : sections = b ++ q :: a) :
    ∃ body, writeSection obj offsets fuel q = some body ∧ serialize obj offsets fuel [q] = some body ∧
      BitVec.ofNat 64 body.length = sizeAt (endOf obj 0 b) (obj q).content := by
  obtain ⟨content, hq, hsize⟩ := h.size b q a hsplit
  obtain ⟨body, hbody, hlen⟩ := writeSection_eq hq hsize
  exact ⟨body, hbody, by simp [serialize, hbody], hlen⟩

/-- The bytes of a first part of the list end where its sections end. -/
theorem front {b a : List SectionPtr} (hsplit : sections = b ++ a) :
    ∃ front, serialize obj offsets fuel b = some front ∧ BitVec.ofNat 64 front.length = endOf obj 0 b := by
  induction b using List.reverseRecOn generalizing a with
  | nil => exact ⟨[], rfl, rfl⟩
  | append_singleton b q ih =>
    rw [List.append_assoc] at hsplit
    obtain ⟨front, hrun, hlen⟩ := ih hsplit
    obtain ⟨body, -, hw, hbl⟩ := h.body hsplit
    refine ⟨front ++ body, serialize_append hrun hw, ?_⟩
    rw [List.length_append, BitVec.ofNat_add, hlen, hbl, endOf_concat]

theorem back {b a : List SectionPtr} (hsplit : sections = b ++ a) :
    ∃ back, serialize obj offsets fuel a = some back := by
  induction a generalizing b with
  | nil => exact ⟨[], rfl⟩
  | cons q a ih =>
    obtain ⟨body, -, hw, -⟩ := h.body hsplit
    obtain ⟨back, hrun⟩ := ih (b := b ++ [q]) (by rw [hsplit, List.append_assoc]; rfl)
    exact ⟨body ++ back, serialize_append hw hrun⟩

theorem endOf_eq_sum {before after : List SectionPtr} (hsplit : sections = before ++ after) :
    endOf obj 0 before = (before.map fun q => sizeAt (offsets q) (obj q).content).sum := by
  induction before using List.reverseRecOn generalizing after with
  | nil => rfl
  | append_singleton before q ih =>
    rw [List.append_assoc] at hsplit
    rw [endOf_concat, List.map_append, List.sum_append, List.map_cons, List.map_nil, List.sum_singleton,
      h.offset before q _ hsplit, ← ih hsplit]

theorem laidOut : ∃ bytes, serialize obj offsets fuel sections = some bytes ∧
    LaidOut obj fuel offsets sections bytes := by
  obtain ⟨bytes, hbytes, -⟩ := h.front (List.append_nil sections).symm
  refine ⟨bytes, hbytes, ?_, ?_, ?_⟩
  · refine ⟨fun p => sizeAt (offsets p) (obj p).content, fun p hp content hc => ?_, fun before p after hsplit => ?_⟩
    · obtain ⟨b, a, hsplit⟩ := List.append_of_mem hp
      obtain ⟨content', hc', hs⟩ := h.size b p a hsplit
      obtain rfl : content = content' := Option.some.inj (hc.symm.trans hc')
      rw [hs, ← h.offset b p a hsplit]
    · rw [h.offset before p after hsplit, h.endOf_eq_sum hsplit]
  · intro before q p after hsplit previous desiredOffset isIsolatedPadding hq
    rw [h.offset (before ++ [q]) p after (by rw [hsplit, List.append_assoc]; rfl), endOf_concat, hq]
    exact padding_aligns _ _ _
  · intro before p after hsplit
    obtain ⟨front, hf, hlen⟩ := h.front hsplit
    obtain ⟨body, hw, hw', -⟩ := h.body hsplit
    obtain ⟨back, hb⟩ := h.back (b := before ++ [p]) (a := after) (by rw [hsplit, List.append_assoc]; rfl)
    have hall : bytes = front ++ body ++ back := by
      have hrun := serialize_append hf (serialize_append hw' hb)
      rw [List.singleton_append, ← hsplit, hbytes, Option.some.injEq, ← List.append_assoc] at hrun
      exact hrun
    refine ⟨front, body, back, hall, hw, by rw [h.offset before p after hsplit, hlen], fun hlt => ?_⟩
    rw [h.offset before p after hsplit, ← hlen, BitVec.toNat_ofNat, Nat.mod_eq_of_lt]
    rw [hall, List.length_append, List.length_append] at hlt
    omega

end Settled

end Layout

/-- For every list of sections that the generator can make: `updateOffsets` and `serialize`
lay out the file. -/
theorem file_layout (calls : List OutputCall) (out : Output) (hrun : Output.runAll calls = some out)
    (hcontent : ∀ p ∈ out.list.sections, (out.obj p).content.isSome = true)
    (start : Offsets) (fuel : Nat) (hfuel : out.list.sections.length ≤ fuel) :
    ∃ offsets bytes, updateOffsets out.obj fuel out.list.sections start 0 = some offsets ∧
      serialize out.obj offsets fuel out.list.sections = some bytes ∧
      LaidOut out.obj fuel offsets out.list.sections bytes := by
  have hwf := Output.wf_runAll hrun
  obtain ⟨offsets, hoff, hoffsets⟩ := updateOffsets_eq hwf.nodup hwf.paddings hcontent hfuel start
  have hsettled : Settled out.obj fuel offsets out.list.sections := by
    refine ⟨hoffsets, fun b q a h => ?_⟩
    obtain ⟨content, hq⟩ := Option.isSome_iff_exists.1 (hcontent q (by rw [h]; simp))
    refine ⟨content, hq, getSize_eq hwf.paddings hcontent h (fun b' r a' hb => ?_) ?_ hq⟩
    · exact hoffsets b' r (a' ++ q :: a) (by rw [h, hb, List.append_assoc]; rfl)
    · rw [h, List.length_append, List.length_cons] at hfuel
      omega
  obtain ⟨bytes, hbytes, hlaid⟩ := hsettled.laidOut
  exact ⟨offsets, bytes, hoff, hbytes, hlaid⟩

def sampleCalls : List OutputCall :=
  [.addSection 0 "=elfheader" false none, .setContent 0 (.string [1, 2, 3]), .makePaddingSection 1 0x10 true,
    .makePaddingSection 2 0x10 false, .addSection 3 ".text" true (some (.string [4]))]

theorem file_layout_sample : ∃ out, Output.runAll sampleCalls = some out ∧ out.list.sections = [0, 1, 2, 3] ∧
    ∃ offsets bytes, updateOffsets out.obj 4 out.list.sections (fun _ => 0) 0 = some offsets ∧
      serialize out.obj offsets 4 out.list.sections = some bytes ∧
      LaidOut out.obj 4 offsets out.list.sections bytes := by
  refine ⟨_, rfl, rfl, file_layout sampleCalls _ rfl ?_ _ 4 le_rfl⟩
  decide

end Egalito.Generate
