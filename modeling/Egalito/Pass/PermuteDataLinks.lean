import Egalito.Pass.PermuteData
import Egalito.Lib.Align
import Mathlib
/-!
# The links to a permuted section

`updatedLink` of `pass/permutedata.cpp`, and who holds the links. Each kind of
link is moved by its own branch; links from the last variable on are to stay.
-/

open Egalito.Lib

namespace Egalito.Pass.PermuteData

/-- The section that a data link or the marker of a link is based on. -/
inductive Base
  | old | new | other (address : Nat)
  deriving DecidableEq, Repr

/-- `other` is a link that is not looked at: also an `AbsoluteMarkerLink`, and a link to a marker
of a section's start or end, which has no base. -/
inductive Link
  | dataOffset (base : Base) (target addend : Nat)
  | absoluteData (base : Base) (target addend : Nat)
  | marker (base : Base) (addend : Nat)
  | other (address : Nat)
  deriving DecidableEq, Repr

/-- An instruction, or a data variable of a section. -/
inductive Holder
  | instruction | dataVariable (base : Base) (address : Nat)
  deriving DecidableEq, Repr

/-- The highest end of the regions, on the next page. -/
def highAddress (regions : List (Nat × Nat)) : Nat :=
  roundUp 0x1000 (regions.foldl (fun high region => max high (region.1 + region.2)) 0)

/-- A module with its regions and the links of its code and data. -/
structure Program where
  mod : Module
  regions : List (Nat × Nat)
  links : List (Holder × Link)
  inside : ∃ region ∈ regions, region.1 ≤ mod.data.address ∧
    mod.data.address + mod.data.size ≤ region.1 + region.2
  fits : highAddress regions + mod.data.size < 2 ^ 63

namespace Program

variable (p : Program)

abbrev data : DataSection := p.mod.data

/-- The address of the new section. -/
def newAddress : Nat := highAddress p.regions

def baseAddress : Base → Nat
  | .old => p.data.address
  | .new => p.newAddress
  | .other address => address

def getTargetAddress : Link → Nat
  | .dataOffset base target addend | .absoluteData base target addend =>
    (p.baseAddress base + target + addend) % 2 ^ 64
  | .marker base addend => (p.baseAddress base + addend) % 2 ^ 64
  | .other address => address % 2 ^ 64

/-- The distance from the old section, in 64 bits. -/
def offsetOf (address : Nat) : Nat := (address + 2 ^ 64 - p.data.address) % 2 ^ 64

def updatedLink (newlayout : Nat → Option Piece) (last : GlobalVariable) : Link → Option Link
  | .dataOffset .old target addend =>
    let address := p.getTargetAddress (.dataOffset .old target addend)
    if last.address ≤ address then some (.dataOffset .old target addend)
    else (newOffset newlayout (p.offsetOf address)).map fun offset => .dataOffset .new offset 0
  | .absoluteData .old target addend =>
    let address := p.getTargetAddress (.absoluteData .old target addend)
    (newOffset newlayout (p.offsetOf address)).map fun offset => .absoluteData .new offset 0
  | .marker .old addend => some (.marker .new addend)
  | link => some link

/-- The links of the variables that stay in the old section are left alone. -/
def update (newlayout : Nat → Option Piece) (last : GlobalVariable) : Holder × Link → Option Link
  | (.dataVariable .old address, link) =>
    if last.address ≤ address then some link else p.updatedLink newlayout last link
  | (_, link) => p.updatedLink newlayout last link

/-! ## What the links should refer to -/

def RefersTo (link : Link) : Prop :=
  p.data.address ≤ p.getTargetAddress link ∧ p.getTargetAddress link < p.data.address + p.data.size

instance (link : Link) : Decidable (p.RefersTo link) := inferInstanceAs (Decidable (_ ∧ _))

/-- From the last variable on, everything stays where it is. -/
def image (newlayout : Nat → Option Piece) (last : GlobalVariable) (address : Nat) : Option Nat :=
  if last.address ≤ address then some address
  else (newOffset newlayout (p.offsetOf address)).map fun offset => (p.newAddress + offset) % 2 ^ 64

/-- Links that referred to one address of the section refer to its image. -/
def Agrees (shuffle : Shuffle) : Prop :=
  ∀ last, lastVariable p.mod = some last → ∃ result, permute p.mod shuffle = some result ∧
    ∀ one ∈ p.links, ∀ two ∈ p.links, p.RefersTo one.2 → p.getTargetAddress one.2 = p.getTargetAddress two.2 →
      ∃ one' two', p.update result.newlayout last one = some one' ∧ p.update result.newlayout last two = some two' ∧
        p.getTargetAddress one' = p.getTargetAddress two' ∧
        p.image result.newlayout last (p.getTargetAddress one.2) = some (p.getTargetAddress one')

variable (newlayout : Nat → Option Piece) (last : GlobalVariable)

/-- The links that are moved with what they refer to: all data offset links to the section, absolute data links
to what moves, marker links to what the permutation leaves at its offset. Others are left alone. -/
def Moved (link : Link) : Prop :=
  match link with
  | .dataOffset .old _ _ => True
  | .absoluteData .old _ _ => p.getTargetAddress link < last.address
  | .marker .old _ => p.getTargetAddress link < last.address ∧
    newOffset newlayout (p.offsetOf (p.getTargetAddress link)) = some (p.offsetOf (p.getTargetAddress link))
  | link => last.address ≤ p.getTargetAddress link

/-- An immobile variable can only refer to what is immobile. -/
def Followed : Holder × Link → Prop
  | (.dataVariable .old address, link) =>
    if last.address ≤ address then last.address ≤ p.getTargetAddress link else p.Moved newlayout last link
  | (_, link) => p.Moved newlayout last link

/-! ## The addresses -/

variable {p : Program} {newlayout : Nat → Option Piece} {last : GlobalVariable} {link : Link} {shuffle : Shuffle}

theorem le_foldl_max (regions : List (Nat × Nat)) (high : Nat) :
    high ≤ regions.foldl (fun high region => max high (region.1 + region.2)) high ∧
    ∀ region ∈ regions, region.1 + region.2 ≤
      regions.foldl (fun high region => max high (region.1 + region.2)) high := by
  induction regions generalizing high with
  | nil => exact ⟨le_refl _, fun _ h => nomatch h⟩
  | cons region regions ih =>
    rw [List.foldl_cons]
    obtain ⟨hhigh, hregions⟩ := ih (max high (region.1 + region.2))
    refine ⟨(le_max_left _ _).trans hhigh, List.forall_mem_cons.2 ⟨(le_max_right _ _).trans hhigh, hregions⟩⟩

/-- The new section is behind the old one. -/
theorem end_le_newAddress (p : Program) : p.data.address + p.data.size ≤ p.newAddress := by
  obtain ⟨region, hregion, -, hend⟩ := p.inside
  calc p.data.address + p.data.size
    _ ≤ region.1 + region.2 := hend
    _ ≤ _ := (le_foldl_max p.regions 0).2 region hregion
    _ ≤ p.newAddress := le_roundUp (by decide)

theorem offsetOf_eq (h : p.RefersTo link) :
    p.offsetOf (p.getTargetAddress link) = p.getTargetAddress link - p.data.address := by
  have hfits : p.newAddress + p.data.size < 2 ^ 63 := p.fits
  have hbehind := end_le_newAddress p
  obtain ⟨hle, hlt⟩ := h
  unfold offsetOf
  omega

/-- The offset of a link to the section goes somewhere in the room of the new section. -/
theorem exists_newOffset {result : Permuted} (hlast : lastVariable p.mod = some last)
    (hresult : permute p.mod shuffle = some result) (h : p.RefersTo link) :
    ∃ k, newOffset result.newlayout (p.offsetOf (p.getTargetAddress link)) = some k ∧
      (p.newAddress + k) % 2 ^ 64 = p.newAddress + k := by
  obtain ⟨pieces, -, hcut, hpermute⟩ := permute_eq hlast shuffle
  rw [hpermute] at hresult
  cases hresult
  have hfits : p.newAddress + p.mod.data.size < 2 ^ 63 := p.fits
  have ho : p.offsetOf (p.getTargetAddress link) < p.data.size := by
    rw [offsetOf_eq h]
    have hle := h.1
    have hlt := h.2
    omega
  obtain ⟨k, hk, hlt⟩ := newOffset_lt hcut (shuffle.perm pieces) ho
  exact ⟨k, hk, Nat.mod_eq_of_lt (by omega)⟩

/-! ## One link -/

/-- The link is updated to the image of its address. -/
def Goes (p : Program) (newlayout : Nat → Option Piece) (last : GlobalVariable) (address : Nat)
    (updated : Option Link) : Prop :=
  ∃ link', updated = some link' ∧ p.image newlayout last address = some (p.getTargetAddress link')

variable {k : Nat}

theorem goes_unchanged (last : GlobalVariable) (h : p.RefersTo link) (hk : newOffset newlayout (p.offsetOf (p.getTargetAddress link)) = some k)
    (hmod : (p.newAddress + k) % 2 ^ 64 = p.newAddress + k) :
    p.Goes newlayout last (p.getTargetAddress link) (some link) ↔ last.address ≤ p.getTargetAddress link := by
  have hbehind := end_le_newAddress p
  have hlt := h.2
  unfold Goes image
  by_cases himmobile : last.address ≤ p.getTargetAddress link
  · simp [himmobile]
  · rw [hk]
    simp only [himmobile, if_false, Option.map_some, hmod, Option.some.injEq, exists_eq_left', iff_false]
    omega

/-- A link to the new section, `offset` behind its start. -/
theorem goes_new (h : p.RefersTo link) (hk : newOffset newlayout (p.offsetOf (p.getTargetAddress link)) = some k)
    (hmod : (p.newAddress + k) % 2 ^ 64 = p.newAddress + k) {link' : Link} {offset : Nat}
    (htarget : p.getTargetAddress link' = p.newAddress + offset) :
    p.Goes newlayout last (p.getTargetAddress link) (some link') ↔
      p.getTargetAddress link < last.address ∧ offset = k := by
  have hbehind := end_le_newAddress p
  have hlt := h.2
  unfold Goes image
  by_cases himmobile : last.address ≤ p.getTargetAddress link
  · simp only [himmobile, if_true, Option.some.injEq, exists_eq_left', htarget]
    omega
  · rw [hk]
    simp only [himmobile, if_false, Option.map_some, hmod, Option.some.injEq, exists_eq_left', htarget]
    omega

theorem updatedLink_goes_iff (last : GlobalVariable) (h : p.RefersTo link)
    (hk : newOffset newlayout (p.offsetOf (p.getTargetAddress link)) = some k)
    (hmod : (p.newAddress + k) % 2 ^ 64 = p.newAddress + k) :
    p.Goes newlayout last (p.getTargetAddress link) (p.updatedLink newlayout last link) ↔
      p.Moved newlayout last link := by
  have hunchanged := goes_unchanged last h hk hmod
  cases link with
  | dataOffset base target addend =>
    cases base with
    | old =>
      simp only [Moved, iff_true]
      unfold updatedLink
      dsimp only
      split
      case isTrue himmobile => exact hunchanged.2 himmobile
      case isFalse hmobile =>
        have htarget : p.getTargetAddress (.dataOffset .new k 0) = p.newAddress + k := by
          simpa only [getTargetAddress, baseAddress, Nat.add_zero] using hmod
        rw [hk]
        exact (goes_new h hk hmod htarget).2 ⟨by omega, rfl⟩
    | new => exact hunchanged
    | other => exact hunchanged
  | absoluteData base target addend =>
    cases base with
    | old =>
      have htarget : p.getTargetAddress (.absoluteData .new k 0) = p.newAddress + k := by
        simpa only [getTargetAddress, baseAddress, Nat.add_zero] using hmod
      unfold updatedLink
      dsimp only
      rw [hk, Option.map_some, goes_new h hk hmod htarget]
      simp [Moved]
    | new => exact hunchanged
    | other => exact hunchanged
  | marker base addend =>
    cases base with
    | old =>
      have htarget : p.getTargetAddress (.marker .new addend) =
          p.newAddress + p.offsetOf (p.getTargetAddress (.marker .old addend)) := by
        have hfits : p.newAddress + p.data.size < 2 ^ 63 := p.fits
        have hbehind := end_le_newAddress p
        rw [offsetOf_eq h]
        obtain ⟨hle, hlt⟩ := h
        simp only [getTargetAddress, baseAddress] at hle hlt ⊢
        omega
      unfold updatedLink
      rw [goes_new h hk hmod htarget]
      simp only [Moved, hk, Option.some.injEq, eq_comm]
    | new => exact hunchanged
    | other => exact hunchanged
  | other address => exact hunchanged

theorem update_goes_iff {result : Permuted} (hlast : lastVariable p.mod = some last)
    (hresult : permute p.mod shuffle = some result) (x : Holder × Link) (h : p.RefersTo x.2) :
    p.Goes result.newlayout last (p.getTargetAddress x.2) (p.update result.newlayout last x) ↔
      p.Followed result.newlayout last x := by
  obtain ⟨holder, link⟩ := x
  obtain ⟨k, hk, hmod⟩ := exists_newOffset hlast hresult h
  have hupdated := updatedLink_goes_iff last h hk hmod
  cases holder with
  | instruction => exact hupdated
  | dataVariable base address =>
    cases base with
    | old =>
      unfold update Followed
      dsimp only
      split
      · exact goes_unchanged last h hk hmod
      · exact hupdated
    | new => exact hupdated
    | other => exact hupdated

/-- The layout that the pass makes. -/
def layout (p : Program) (shuffle : Shuffle) : Nat → Option Piece :=
  (permute p.mod shuffle).elim (fun _ => none) Permuted.newlayout

end Program

theorem two_initialized : 0 + 2 ≤ ([1, 2] : List UInt8).length := by decide

/-- A data offset link and an absolute data link to the last variable. -/
def lastByte : Program where
  mod := ⟨⟨16, 2, 0, [1, 2], [⟨0, 17, 1⟩], by decide, two_initialized⟩, [⟨0, 17, 1⟩], []⟩
  regions := [(16, 2)]
  links := [(.instruction, .dataOffset .old 1 0), (.instruction, .absoluteData .old 1 0)]
  inside := ⟨(16, 2), by decide⟩
  fits := by decide

end Egalito.Pass.PermuteData
