import Mathlib.Data.List.TakeWhile
import Mathlib.Tactic
/-!
# Byte streams

A binary input stream with one status bit, the two ways of extracting bytes
from it, and little-endian integers.

`Reads m bs a` is the unit of every round trip: run on a good stream that
starts with `bs`, `m` takes exactly `bs` off it and returns `a`. `Takes m P`
bounds what `m` can do on any stream: if the stream is still good after it, `m`
took `k` bytes off a good one and returned an `a` with `P a k`. The rules of
both follow the monad, so that a proof follows the reader's text.
-/

namespace Egalito.Lib

/-! ## Little-endian integers -/

/-- The `n` low bytes of `v`, least significant first. -/
def leBytes : Nat → Nat → List UInt8
  | 0, _ => []
  | n + 1, v => UInt8.ofNat v :: leBytes n (v / 256)

def leNat : List UInt8 → Nat
  | [] => 0
  | b :: bs => b.toNat + 256 * leNat bs

@[simp]
theorem length_leBytes (n v : Nat) : (leBytes n v).length = n := by
  induction n generalizing v with
  | zero => rfl
  | succ n ih => simp [leBytes, ih]

theorem leNat_leBytes (n v : Nat) : leNat (leBytes n v) = v % 256 ^ n := by
  induction n generalizing v with
  | zero => simp [leBytes, leNat, Nat.mod_one]
  | succ n ih =>
    have hb : (UInt8.ofNat v).toNat = v % 256 := by simp
    rw [leBytes, leNat, ih, hb, pow_succ', Nat.mod_mul]

theorem leBytes_leNat (bs : List UInt8) : leBytes bs.length (leNat bs) = bs := by
  induction bs with
  | nil => rfl
  | cons b bs ih =>
    have hb : b.toNat < 256 := b.toNat_lt
    have hlow : UInt8.ofNat (b.toNat + 256 * leNat bs) = b := by
      rw [UInt8.ofNat_eq_iff_mod_eq_toNat]
      omega
    have hhigh : (b.toNat + 256 * leNat bs) / 256 = leNat bs := by omega
    rw [List.length_cons, leNat, leBytes, hlow, hhigh, ih]

theorem leBytes_mod (n v : Nat) : leBytes n (v % 256 ^ n) = leBytes n v := by
  induction n generalizing v with
  | zero => rfl
  | succ n ih =>
    have hlow : UInt8.ofNat (v % 256 ^ (n + 1)) = UInt8.ofNat v := by
      rw [UInt8.ofNat_eq_iff_mod_eq_toNat, UInt8.toNat_ofNat', pow_succ']
      exact Nat.mod_mul_right_mod v 256 (256 ^ n)
    rw [leBytes, leBytes, hlow, pow_succ', Nat.mod_mul_right_div_self, ih]

theorem leNat_append (bs cs : List UInt8) : leNat (bs ++ cs) = leNat bs + 256 ^ bs.length * leNat cs := by
  induction bs with
  | nil => simp [leNat]
  | cons b bs ih =>
    rw [List.cons_append, leNat, leNat, ih, List.length_cons, pow_succ]
    ring

theorem leNat_lt (bs : List UInt8) : leNat bs < 256 ^ bs.length := by
  induction bs with
  | nil => simp [leNat]
  | cons b bs ih =>
    have hb : b.toNat < 256 := b.toNat_lt
    rw [leNat, List.length_cons, pow_succ]
    omega

/-! ## Streams -/

/-- What is left to extract, and whether every extraction so far succeeded. -/
structure Stream where
  rest : List UInt8
  good : Bool
deriving DecidableEq, Repr

/-- A computation on a stream; `none` is a failed assertion or an exception. -/
abbrev Reader := StateT Stream Option

namespace Reader

/-- `istream::read` into a zeroed buffer of `n` bytes. -/
def read (n : Nat) : Reader (List UInt8) := fun s =>
  if s.good then
    if n ≤ s.rest.length then some (s.rest.take n, ⟨s.rest.drop n, true⟩)
    else some (s.rest ++ List.replicate (n - s.rest.length) 0, ⟨[], false⟩)
  else some (List.replicate n 0, s)

/-- `std::getline`: the bytes up to `delim`, which is dropped. -/
def getline (delim : UInt8) : Reader (List UInt8) := fun s =>
  if s.good then
    match s.rest.dropWhile (· != delim) with
    | [] => some (s.rest, ⟨[], false⟩)
    | _ :: rest => some (s.rest.takeWhile (· != delim), ⟨rest, true⟩)
  else some ([], s)

/-- An unsigned integer of `n` bytes, in the host's little-endian order. -/
def readLE (n : Nat) : Reader Nat := do
  return leNat (← read n)

def stillGood : Reader Bool := fun s => some (s.good, s)

end Reader

/-! ## Exact reads -/

/-- `m` takes exactly `bs` off the stream, whatever follows, and returns `a`. -/
def Reads {α : Type} (m : Reader α) (bs : List UInt8) (a : α) : Prop :=
  ∀ rest, m ⟨bs ++ rest, true⟩ = some (a, ⟨rest, true⟩)

section Rules

variable {α β : Type} {m : Reader α} {f : α → Reader β} {bs cs : List UInt8} {a a' : α} {b : β}

theorem reads_pure (a : α) : Reads (pure a) [] a := fun _ => rfl

theorem Reads.bind (hm : Reads m bs a) (hf : Reads (f a) cs b) : Reads (m >>= f) (bs ++ cs) b := by
  intro rest
  change (m ⟨bs ++ cs ++ rest, true⟩ >>= fun p => f p.1 p.2) = _
  rw [List.append_assoc, hm]
  exact hf rest

theorem Reads.map (hm : Reads m bs a) (g : α → β) : Reads (g <$> m) bs (g a) := by
  intro rest
  change (m ⟨bs ++ rest, true⟩ >>= fun p => some (g p.1, p.2)) = _
  rw [hm]
  rfl

/-- A last step that takes no bytes. -/
theorem Reads.bind_nil (hm : Reads m bs a) (hf : Reads (f a) [] b) : Reads (m >>= f) bs b := by
  have h := hm.bind hf
  rwa [List.append_nil] at h

/-- A last step that only computes with what was read. -/
theorem Reads.bind_pure (hm : Reads m bs a) (hf : f a = pure b) : Reads (m >>= f) bs b :=
  hm.bind_nil (by rw [hf]; exact reads_pure b)

/-- A step that looks at no bytes. -/
theorem Reads.skip (hm : Reads m [] a) (hf : Reads (f a) cs b) : Reads (m >>= f) cs b := hm.bind hf

theorem reads_lift {x : Option α} (hx : x = some a) : Reads (liftM x) [] a := by
  subst hx
  exact fun _ => rfl

/-- Run on bytes that its first step takes exactly, a reader goes on with the rest. -/
theorem Reads.run_bind (hm : Reads m bs a) (f : α → Reader β) (rest : List UInt8) :
    (m >>= f) ⟨bs ++ rest, true⟩ = f a ⟨rest, true⟩ := by
  change (m ⟨bs ++ rest, true⟩ >>= fun p => f p.1 p.2) = _
  rw [hm]
  rfl

/-- A reader returns one value on a given prefix. -/
theorem Reads.unique (h : Reads m bs a) (h' : Reads m bs a') : a = a' := by
  have := (h []).symm.trans (h' [])
  simp only [Option.some.injEq, Prod.mk.injEq, and_true] at this
  exact this

theorem reads_stillGood : Reads Reader.stillGood [] true := fun _ => rfl

theorem reads_read (bs : List UInt8) : Reads (Reader.read bs.length) bs bs := by
  intro rest
  simp [Reader.read]

theorem reads_readLE (n v : Nat) : Reads (Reader.readLE n) (leBytes n v) (v % 256 ^ n) := by
  have h := reads_read (leBytes n v)
  rw [length_leBytes] at h
  exact h.bind_pure (by rw [leNat_leBytes])

theorem reads_getline {delim : UInt8} (hbs : delim ∉ bs) :
    Reads (Reader.getline delim) (bs ++ [delim]) bs := by
  intro rest
  have hne : ∀ b ∈ bs, (b != delim) = true := fun b hb => by
    simpa using fun h : b = delim => hbs (h ▸ hb)
  simp only [Reader.getline, if_true, List.append_assoc, List.singleton_append]
  rw [List.dropWhile_append_of_pos hne, List.takeWhile_append_of_pos hne]
  simp

end Rules

/-! ## How much a reader takes -/

/-- If the stream is good after `m`, then `m` took `k` bytes and returned `a` with `P a k`. -/
def Takes {α : Type} (m : Reader α) (P : α → Nat → Prop) : Prop :=
  ∀ s a s', m s = some (a, s') → s'.good = true →
    s.good = true ∧ ∃ k, P a k ∧ s.rest.length = s'.rest.length + k

section TakesRules

variable {α β : Type} {m : Reader α} {f : α → Reader β} {P R : α → Nat → Prop} {Q : β → Nat → Prop}

theorem Takes.weaken (h : Takes m P) (hPR : ∀ a k, P a k → R a k) : Takes m R := by
  intro s a s' hrun hgood
  obtain ⟨hs, k, hk, hlen⟩ := h s a s' hrun hgood
  exact ⟨hs, k, hPR a k hk, hlen⟩

theorem takes_pure (a : α) : Takes (pure a) (fun b k => b = a ∧ k = 0) := by
  intro s b s' hrun hgood
  cases hrun
  exact ⟨hgood, 0, ⟨rfl, rfl⟩, rfl⟩

/-- The second step adds to what the first one took, and may use how that went. -/
theorem Takes.bind (hm : Takes m P) (hf : ∀ a, Takes (f a) (fun b j => ∀ i, P a i → Q b (i + j))) :
    Takes (m >>= f) Q := by
  intro s b s' hrun hgood
  change (m s >>= fun p => f p.1 p.2) = _ at hrun
  rw [Option.bind_eq_bind, Option.bind_eq_some_iff] at hrun
  obtain ⟨⟨a, mid⟩, ha, hb⟩ := hrun
  obtain ⟨hmid, j, hj, hjlen⟩ := hf a mid b s' hb hgood
  obtain ⟨hs, i, hi, hilen⟩ := hm s a mid ha hmid
  exact ⟨hs, i + j, hj i hi, by omega⟩

/-- The last step only computes with what was read. -/
theorem Takes.bind_pure {g : α → β} (hm : Takes m P) (hg : ∀ a i, P a i → Q (g a) i) :
    Takes (m >>= fun a => pure (g a)) Q :=
  hm.bind fun a => (takes_pure (g a)).weaken (by rintro b k ⟨rfl, rfl⟩ i hi; exact hg a i hi)

theorem takes_map {g : α → β} (hm : Takes m P) (hg : ∀ a i, P a i → Q (g a) i) : Takes (g <$> m) Q := by
  have := hm.bind_pure hg
  rwa [bind_pure_comp] at this

theorem takes_lift (x : Option α) : Takes (liftM x) (fun a k => x = some a ∧ k = 0) := by
  intro s a s' hrun hgood
  cases x with
  | none => cases hrun
  | some b =>
    cases hrun
    exact ⟨hgood, 0, ⟨rfl, rfl⟩, rfl⟩

theorem takes_stillGood : Takes Reader.stillGood (fun b k => b = true ∧ k = 0) := by
  intro s a s' hrun hgood
  cases hrun
  exact ⟨hgood, 0, ⟨hgood, rfl⟩, rfl⟩

theorem takes_read (n : Nat) : Takes (Reader.read n) (fun bs k => bs.length = n ∧ k = n) := by
  intro s a s' hrun hgood
  simp only [Reader.read] at hrun
  split_ifs at hrun with hs hn <;> cases hrun
  · refine ⟨hs, n, ⟨?_, rfl⟩, ?_⟩
    · simpa using hn
    · simp only [List.length_drop]
      omega
  · cases hgood
  · exact absurd hgood hs

theorem takes_readLE (n : Nat) : Takes (Reader.readLE n) (fun _ k => k = n) :=
  (takes_read n).bind_pure fun _ _ h => h.2

theorem takes_getline (delim : UInt8) :
    Takes (Reader.getline delim) (fun bs k => delim ∉ bs ∧ k = bs.length + 1) := by
  intro s a s' hrun hgood
  simp only [Reader.getline] at hrun
  split_ifs at hrun with hs
  · have hsplit : s.rest = s.rest.takeWhile (· != delim) ++ s.rest.dropWhile (· != delim) :=
      List.takeWhile_append_dropWhile.symm
    split at hrun <;> cases hrun
    · cases hgood
    · rename_i b rest hdrop
      refine ⟨hs, _, ⟨fun h => by simpa using List.mem_takeWhile_imp h, rfl⟩, ?_⟩
      have hlen := congrArg List.length hsplit
      rw [List.length_append, hdrop, List.length_cons] at hlen
      change s.rest.length = rest.length + (_ + 1)
      omega
  · cases hrun
    exact absurd hgood hs

end TakesRules

/-! ## Which bytes a reader takes -/

/-- If the stream is good after `m`, then `m` took bytes `bs` off a good one and returned `a`
with `P a bs`. -/
def Splits {α : Type} (m : Reader α) (P : α → List UInt8 → Prop) : Prop :=
  ∀ s a s', m s = some (a, s') → s'.good = true → s.good = true ∧ ∃ bs, P a bs ∧ s.rest = bs ++ s'.rest

section SplitsRules

variable {α β : Type} {m : Reader α} {f : α → Reader β} {P R : α → List UInt8 → Prop} {Q : β → List UInt8 → Prop}

theorem Splits.weaken (h : Splits m P) (hPR : ∀ a bs, P a bs → R a bs) : Splits m R := by
  intro s a s' hrun hgood
  obtain ⟨hs, bs, hbs, hrest⟩ := h s a s' hrun hgood
  exact ⟨hs, bs, hPR a bs hbs, hrest⟩

theorem splits_pure (a : α) : Splits (pure a) (fun b bs => b = a ∧ bs = []) := by
  intro s b s' hrun hgood
  cases hrun
  exact ⟨hgood, [], ⟨rfl, rfl⟩, rfl⟩

theorem Splits.bind (hm : Splits m P) (hf : ∀ a, Splits (f a) (fun b cs => ∀ bs, P a bs → Q b (bs ++ cs))) :
    Splits (m >>= f) Q := by
  intro s b s' hrun hgood
  change (m s >>= fun p => f p.1 p.2) = _ at hrun
  rw [Option.bind_eq_bind, Option.bind_eq_some_iff] at hrun
  obtain ⟨⟨a, mid⟩, ha, hb⟩ := hrun
  obtain ⟨hmid, cs, hcs, hmrest⟩ := hf a mid b s' hb hgood
  obtain ⟨hs, bs, hbs, hrest⟩ := hm s a mid ha hmid
  exact ⟨hs, bs ++ cs, hcs bs hbs, by rw [hrest, hmrest, List.append_assoc]⟩

theorem Splits.bind_pure {g : α → β} (hm : Splits m P) (hg : ∀ a bs, P a bs → Q (g a) bs) :
    Splits (m >>= fun a => pure (g a)) Q := by
  refine hm.bind fun a => (splits_pure (g a)).weaken ?_
  rintro b cs ⟨rfl, rfl⟩ bs hbs
  rw [List.append_nil]
  exact hg a bs hbs

theorem splits_map {g : α → β} (hm : Splits m P) (hg : ∀ a bs, P a bs → Q (g a) bs) : Splits (g <$> m) Q := by
  have := hm.bind_pure hg
  rwa [bind_pure_comp] at this

theorem splits_read (n : Nat) : Splits (Reader.read n) (fun a bs => a = bs ∧ bs.length = n) := by
  intro s a s' hrun hgood
  simp only [Reader.read] at hrun
  split_ifs at hrun with hs hn <;> cases hrun
  · refine ⟨hs, s.rest.take n, ⟨rfl, ?_⟩, (List.take_append_drop n s.rest).symm⟩
    simpa using hn
  · cases hgood
  · exact absurd hgood hs

theorem splits_readLE (n : Nat) : Splits (Reader.readLE n) (fun v bs => bs = leBytes n v) := by
  refine (splits_read n).bind_pure ?_
  rintro _ bs ⟨rfl, rfl⟩
  exact (leBytes_leNat _).symm

end SplitsRules

end Egalito.Lib
