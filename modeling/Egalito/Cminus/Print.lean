import Egalito.Lib.Field
/-!
# The formatters of `cminus/print.c`

`vfprintf` and `vsnprintf` go through a format in the same way and differ in what
they do with a conversion. `none` is a read behind the terminating NUL of the format,
or through a null pointer.
-/

open Egalito.Lib

namespace Egalito.Cminus

/-! ## Arguments -/

/-- The words that `va_arg` takes in turn, and the strings at addresses. -/
structure Args where
  word : Nat → UInt64
  string : UInt64 → List UInt8
  string_ne : ∀ p, 0 ∉ string p

/-- `va_arg(args, int)`, as the `unsigned long` that it is passed on as. -/
def asInt (word : UInt64) : UInt64 := word.toUInt32.toInt32.toInt64.toUInt64

/-- `va_arg(args, unsigned)` -/
def asUnsigned (word : UInt64) : UInt64 := word.toUInt32.toUInt64

/-- `write_decimal` and `decimal_to_string`, the digits from the end of a buffer. -/
def decimalText (number : UInt64) : List UInt8 := (Nat.toDigits 10 number.toNat).map Char.toUInt8

def hexDigit (digit : UInt64) : UInt8 :=
  if digit ≤ 9 then digit.toUInt8 + '0'.toUInt8 else (digit - 10).toUInt8 + 'a'.toUInt8

/-- `write_hex` and `hex_to_string`: 8 digits, or 16 if the number has more than 32 bits. -/
def hexText (number : UInt64) : List UInt8 :=
  let count := if number >>> 32 = 0 then 8 else 16
  ((List.range count).map fun i => hexDigit ((number >>> UInt64.ofNat (4 * i)) &&& 0xf)).reverse

/-! ## The loop -/

/-- The cases of the switch. -/
inductive Conversion
  | char | string | int | unsigned | hex | pointer | long | longUnsigned | longHex
deriving DecidableEq

def Conversion.ofLetter (c : UInt8) : Option Conversion :=
  if c = 'c'.toUInt8 then some char
  else if c = 's'.toUInt8 then some string
  else if c = 'd'.toUInt8 then some int
  else if c = 'u'.toUInt8 then some unsigned
  else if c = 'x'.toUInt8 then some hex
  else if c = 'p'.toUInt8 then some pointer
  else none

/-- The cases behind an `l`. -/
def Conversion.ofLong (c : UInt8) : Option Conversion :=
  if c = 'd'.toUInt8 then some long
  else if c = 'u'.toUInt8 then some longUnsigned
  else if c = 'x'.toUInt8 then some longHex
  else none

def percent : UInt8 := '%'.toUInt8

def letterL : UInt8 := 'l'.toUInt8

def isFlag (c : UInt8) : Bool := (c ≥ '0'.toUInt8 && c ≤ '9'.toUInt8) || c = '-'.toUInt8

/-- What is behind a `%`: the conversion, and the rest of the format. -/
def directive (rest : List UInt8) : Option (Option Conversion × List UInt8) :=
  match rest.dropWhile isFlag with
  | [] => none
  | d :: rest =>
    if d = letterL then
      match rest with
      | [] => none
      | e :: rest => some (Conversion.ofLong e, rest)
    else some (Conversion.ofLetter d, rest)

theorem length_directive {rest rest' : List UInt8} {conversion : Option Conversion}
    (h : directive rest = some (conversion, rest')) : rest'.length < rest.length := by
  have hsuffix := (rest.dropWhile_suffix isFlag).length_le
  unfold directive at h
  split at h
  · cases h
  · rename_i d tail htail
    rw [htail, List.length_cons] at hsuffix
    split_ifs at h
    · split at h
      · cases h
      · obtain ⟨-, rfl⟩ := Prod.mk.inj (Option.some.inj h)
        rw [List.length_cons] at hsuffix
        omega
    · obtain ⟨-, rfl⟩ := Prod.mk.inj (Option.some.inj h)
      omega

/-- What a formatter does with a character that it copies, and with a conversion. -/
structure Formatter (σ : Type) where
  text : UInt8 → σ → σ
  convert : Conversion → σ → Option σ

namespace Formatter

variable {σ : Type} (f : Formatter σ)

/-- A switch without the case goes on. -/
def switch (conversion : Option Conversion) (s : σ) : Option σ :=
  match conversion with
  | some conversion => f.convert conversion s
  | none => some s

/-- The loop over the format, of which the rest up to the NUL is left. -/
def loop (rest : List UInt8) (s : σ) : Option σ :=
  match rest with
  | [] => some s
  | c :: rest =>
    if c = percent then
      match _h : directive rest with
      | none => none
      | some (conversion, rest') => (f.switch conversion s).bind (loop rest')
    else loop (rest.dropWhile (· ≠ percent)) ((c :: rest.takeWhile (· ≠ percent)).foldl (fun s c => f.text c s) s)
termination_by rest.length
decreasing_by
  · have := length_directive _h
    rw [List.length_cons]
    omega
  · have := (rest.dropWhile_suffix (· ≠ percent)).length_le
    rw [List.length_cons]
    omega

end Formatter

/-! ## `vfprintf` -/

/-- The bytes that are written, and the number of arguments taken. -/
structure Stream where
  out : List UInt8
  next : Nat

def writeString (a : Args) (message : UInt64) : List UInt8 :=
  if message = 0 then "(null)".toList.map Char.toUInt8 else a.string message

def vfprintfConvert (a : Args) (conversion : Conversion) (s : Stream) : Option Stream :=
  let word := a.word s.next
  let bytes := match conversion with
    | .char => [word.toUInt8]
    | .string => writeString a word
    | .int => decimalText (asInt word)
    | .unsigned => decimalText (asUnsigned word)
    | .hex => hexText (asUnsigned word)
    | .pointer => hexText word
    | .long => decimalText word
    | .longUnsigned => decimalText word
    | .longHex => hexText word
  some ⟨s.out ++ bytes, s.next + 1⟩

def vfprintfFormatter (a : Args) : Formatter Stream where
  text c s := ⟨s.out ++ [c], s.next⟩
  convert := vfprintfConvert a

def vfprintf (a : Args) (format : List UInt8) : Option (List UInt8) :=
  ((vfprintfFormatter a).loop format ⟨[], 0⟩).map Stream.out

/-! ## `vsnprintf` -/

/-- What has been written to the buffer, and where `s` points in it. -/
structure Buffer where
  mem : Nat → Option UInt8
  s : Nat
  next : Nat

/-- `while(*s) s ++`, for at most this many rounds. -/
def skipText (mem : Nat → Option UInt8) : Nat → Nat → Nat
  | 0, s => s
  | rounds + 1, s => if mem s = some 0 then s else skipText mem rounds (s + 1)

/-- A string is copied with its NUL, and `s` moves to the NUL. -/
def putString (bytes : List UInt8) (b : Buffer) : Buffer :=
  let mem := copyTo b.mem b.s ((bytes ++ [0]).map some)
  ⟨mem, skipText mem bytes.length b.s, b.next + 1⟩

def vsnprintfConvert (a : Args) (conversion : Conversion) (b : Buffer) : Option Buffer :=
  let word := a.word b.next
  match conversion with
  | .char => some ⟨copyTo b.mem b.s [some word.toUInt8], b.s + 1, b.next + 1⟩
  | .string => if word = 0 then none else some (putString (a.string word) b)
  | .int => some (putString (decimalText (asInt word)) b)
  | .unsigned => some (putString (decimalText (asUnsigned word)) b)
  | .hex => some (putString (hexText (asUnsigned word)) b)
  | .pointer => some (putString (hexText word) b)
  | .long => some (putString (decimalText (asInt word)) b)
  | .longUnsigned => some (putString (decimalText word) b)
  | .longHex => some (putString (hexText word) b)

def vsnprintfFormatter (a : Args) : Formatter Buffer where
  text c b := ⟨copyTo b.mem b.s [some c], b.s + 1, b.next⟩
  convert := vsnprintfConvert a

/-- The size is not looked at. -/
def vsnprintf (a : Args) (_size : Nat) (format : List UInt8) : Option (Nat → Option UInt8) :=
  ((vsnprintfFormatter a).loop format ⟨fun _ => none, 0, 0⟩).map Buffer.mem

/-! ## What is to hold -/

/-- The text up to the first NUL. -/
def cString (bytes : List UInt8) : List UInt8 := bytes.takeWhile (· ≠ 0)

/-- Nothing behind the format is read, at most `size` bytes are written, and a buffer of some size ends with a NUL behind
as much of the text of `vfprintf` as fits. -/
def Formats (a : Args) (size : Nat) (format : List UInt8) : Prop :=
  ∃ out mem, vfprintf a format = some out ∧ vsnprintf a size format = some mem ∧
    (∀ k, (mem k).isSome → k < size) ∧
    (0 < size → ∃ n < size, mem n = some 0 ∧ (List.range n).map mem = (cString (out.take (size - 1))).map some)

/-! ## The pieces of a format -/

inductive Piece
  | text (c : UInt8)
  | directive (conversion : Option Conversion)
deriving DecidableEq

/-- Characters other than `%`, and directives that end in the format. -/
inductive Splits : List UInt8 → List Piece → Prop
  | nil : Splits [] []
  | text {c rest ps} : c ≠ percent → Splits rest ps → Splits (c :: rest) (.text c :: ps)
  | letter {flags d rest ps} : (∀ x ∈ flags, isFlag x = true) → isFlag d = false → d ≠ letterL → Splits rest ps →
      Splits (percent :: (flags ++ d :: rest)) (.directive (Conversion.ofLetter d) :: ps)
  | long {flags e rest ps} : (∀ x ∈ flags, isFlag x = true) → Splits rest ps →
      Splits (percent :: (flags ++ letterL :: e :: rest)) (.directive (Conversion.ofLong e) :: ps)

section Loop

variable {σ : Type} (f : Formatter σ) {format rest flags : List UInt8} {ps : List Piece} {c d e : UInt8} {s t : σ}

def Formatter.piece (s : σ) : Piece → Option σ
  | .text c => some (f.text c s)
  | .directive conversion => f.switch conversion s

theorem loop_text (hc : c ≠ percent) : f.loop (c :: rest) s = f.loop rest (f.text c s) := by
  rw [Formatter.loop, if_neg hc, List.foldl_cons]
  cases rest with
  | nil => simp
  | cons d rest =>
    by_cases hd : d = percent
    · simp [hd]
    · conv_rhs => rw [Formatter.loop, if_neg hd]
      simp [hd]

theorem dropWhile_flags (hflags : ∀ x ∈ flags, isFlag x = true) (hd : isFlag d = false) :
    (flags ++ d :: rest).dropWhile isFlag = d :: rest := by
  rw [List.dropWhile_append_of_pos hflags, List.dropWhile_cons_of_neg (by simp [hd])]

theorem loop_directive {conversion : Option Conversion} {rest' : List UInt8}
    (h : directive rest = some (conversion, rest')) :
    f.loop (percent :: rest) s = (f.switch conversion s).bind (f.loop rest') := by
  rw [Formatter.loop, if_pos rfl]
  split
  · rename_i hnone
    rw [h] at hnone
    cases hnone
  · rename_i hsome
    obtain ⟨rfl, rfl⟩ := Prod.mk.inj (Option.some.inj (h.symm.trans hsome))
    rfl

/-- The loop takes the pieces of a format in turn. -/
theorem loop_of_splits (h : Splits format ps) : f.loop format s = ps.foldlM f.piece s := by
  induction h generalizing s with
  | nil => rw [Formatter.loop]; rfl
  | text hc _ ih =>
    rw [loop_text f hc, ih]
    rfl
  | @letter flags d rest ps hflags hd hl _ ih =>
    have hdirective : directive (flags ++ d :: rest) = some (Conversion.ofLetter d, rest) := by
      rw [directive, dropWhile_flags hflags hd]
      simp only
      rw [if_neg hl]
    rw [loop_directive f hdirective, List.foldlM_cons]
    exact congrArg _ (funext fun _ => ih)
  | @long flags e rest ps hflags _ ih =>
    have hdirective : directive (flags ++ letterL :: e :: rest) = some (Conversion.ofLong e, rest) := by
      rw [directive, dropWhile_flags hflags (by decide)]
      rfl
    rw [loop_directive f hdirective, List.foldlM_cons]
    exact congrArg _ (funext fun _ => ih)

theorem splits_of_directive {conversion : Option Conversion} (h : directive rest = some (conversion, format))
    (hs : Splits format ps) : Splits (percent :: rest) (.directive conversion :: ps) := by
  obtain ⟨flags, tail, hrest, hflags, hdrop⟩ : ∃ flags tail, rest = flags ++ tail ∧ (∀ x ∈ flags, isFlag x = true) ∧
      rest.dropWhile isFlag = tail :=
    ⟨rest.takeWhile isFlag, _, (List.takeWhile_append_dropWhile ..).symm, fun x hx => List.mem_takeWhile_imp hx, rfl⟩
  have hhead : ∀ d ∈ tail.head?, isFlag d = false := by
    rw [← hdrop]
    intro d hd
    have := List.head?_dropWhile_not isFlag rest
    rw [hd] at this
    simpa using this
  rw [directive, hdrop] at h
  rw [hrest]
  cases tail with
  | nil => cases h
  | cons d tail =>
    simp only at h
    split_ifs at h with hl
    · cases tail with
      | nil => cases h
      | cons e tail =>
        obtain ⟨rfl, rfl⟩ := Prod.mk.inj (Option.some.inj h)
        rw [hl]
        exact .long hflags hs
    · obtain ⟨rfl, rfl⟩ := Prod.mk.inj (Option.some.inj h)
      exact .letter hflags (hhead d rfl) hl hs

/-- A loop that comes to the end has gone through pieces. -/
theorem splits_of_loop (h : f.loop format s = some t) : ∃ ps, Splits format ps := by
  induction hn : format.length using Nat.strong_induction_on generalizing format s with
  | _ n ih =>
    cases format with
    | nil => exact ⟨[], .nil⟩
    | cons c rest =>
      by_cases hc : c = percent
      · rw [hc] at h ⊢
        cases hd : directive rest with
        | none =>
          rw [Formatter.loop, if_pos rfl] at h
          split at h
          · cases h
          · rename_i hsome
            rw [hd] at hsome
            cases hsome
        | some found =>
          obtain ⟨conversion, rest'⟩ := found
          rw [loop_directive f hd] at h
          obtain ⟨s', -, h⟩ := Option.bind_eq_some_iff.1 h
          have hlt := length_directive hd
          rw [List.length_cons] at hn
          obtain ⟨ps, hps⟩ := ih rest'.length (by omega) h rfl
          exact ⟨_, splits_of_directive hd hps⟩
      · rw [loop_text f hc] at h
        rw [List.length_cons] at hn
        obtain ⟨ps, hps⟩ := ih rest.length (by omega) h rfl
        exact ⟨_, .text hc hps⟩

end Loop

/-! ## The texts -/

section Texts

variable (a : Args)

/-- What a conversion prints; `cut` is for the `long` that is taken as an `int`. -/
def Conversion.bytes (cut : Bool) (word : UInt64) : Conversion → List UInt8
  | .char => [word.toUInt8]
  | .string => writeString a word
  | .int => decimalText (asInt word)
  | .unsigned => decimalText (asUnsigned word)
  | .hex => hexText (asUnsigned word)
  | .pointer => hexText word
  | .long => decimalText (if cut then asInt word else word)
  | .longUnsigned => decimalText word
  | .longHex => hexText word

/-- The text of the pieces, with the arguments from the one at `n` on. -/
def texts (cut : Bool) : List Piece → Nat → List UInt8
  | [], _ => []
  | .text c :: ps, n => c :: texts cut ps n
  | .directive none :: ps, n => texts cut ps n
  | .directive (some conversion) :: ps, n => conversion.bytes a cut (a.word n) ++ texts cut ps (n + 1)

/-- No string is a null pointer. -/
def NoNull : List Piece → Nat → Prop
  | [], _ => True
  | .text _ :: ps, n => NoNull ps n
  | .directive none :: ps, n => NoNull ps n
  | .directive (some conversion) :: ps, n => (conversion = .string → a.word n ≠ 0) ∧ NoNull ps (n + 1)

/-- The last piece that prints is a number or a string; `ended` if there is none. -/
def endsInString (ended : Bool) : List Piece → Bool
  | [] => ended
  | .text _ :: ps => endsInString false ps
  | .directive none :: ps => endsInString ended ps
  | .directive (some conversion) :: ps => endsInString (conversion ≠ .char) ps

variable {a} {ps : List Piece} {format : List UInt8} {out bytes : List UInt8} {ended : Bool} {n s : Nat} {number : UInt64}
  {mem : Nat → Option UInt8}

theorem vfprintf_of_splits (h : Splits format ps) : vfprintf a format = some (texts a false ps 0) := by
  have hfold : ∀ ps s, ∃ n, List.foldlM (vfprintfFormatter a).piece s ps =
      some ⟨s.out ++ texts a false ps s.next, n⟩ := by
    intro ps
    induction ps with
    | nil => exact fun s => ⟨s.next, by simp [texts]⟩
    | cons p ps ih =>
      intro s
      rw [List.foldlM_cons]
      match p with
      | .text c =>
        obtain ⟨n, hn⟩ := ih ⟨s.out ++ [c], s.next⟩
        exact ⟨n, hn.trans (by rw [texts, List.append_assoc, List.singleton_append])⟩
      | .directive none =>
        obtain ⟨n, hn⟩ := ih s
        exact ⟨n, hn⟩
      | .directive (some conversion) =>
        obtain ⟨n, hn⟩ := ih ⟨s.out ++ conversion.bytes a false (a.word s.next), s.next + 1⟩
        refine ⟨n, Eq.trans ?_ (hn.trans (by rw [texts, List.append_assoc]))⟩
        cases conversion <;> rfl
  obtain ⟨n, hn⟩ := hfold ps ⟨[], 0⟩
  rw [vfprintf, loop_of_splits _ h, hn]
  rfl

theorem decimalText_ne : 0 ∉ decimalText number := by
  intro h
  obtain ⟨c, hc, hzero⟩ := List.mem_map.1 h
  have hdigit := Nat.isDigit_of_mem_toDigits (by decide) (by decide) hc
  simp only [Char.isDigit, Bool.and_eq_true, decide_eq_true_eq, ge_iff_le, UInt32.le_iff_toNat_le] at hdigit
  have hzero := congrArg UInt8.toNat hzero
  change c.val.toNat % 256 = 0 at hzero
  change 48 ≤ c.val.toNat ∧ c.val.toNat ≤ 57 at hdigit
  omega

theorem hexDigit_ne {digit : UInt64} (h : digit.toNat < 16) : hexDigit digit ≠ 0 := by
  intro hzero
  have hzero := congrArg UInt8.toNat hzero
  unfold hexDigit at hzero
  split_ifs at hzero with hle
  · rw [UInt8.toNat_add] at hzero
    change (digit.toNat % 256 + 48) % 256 = 0 at hzero
    omega
  · rw [UInt8.toNat_add] at hzero
    change ((digit - 10).toNat % 256 + 97) % 256 = 0 at hzero
    rw [UInt64.le_iff_toNat_le] at hle
    change ¬ digit.toNat ≤ 9 at hle
    have hsub : (digit - 10).toNat = digit.toNat - 10 := by
      rw [UInt64.toNat_sub_of_le]
      · rfl
      · rw [UInt64.le_iff_toNat_le]
        change 10 ≤ digit.toNat
        omega
    omega

theorem hexText_ne : 0 ∉ hexText number := by
  intro h
  unfold hexText at h
  rw [List.mem_reverse] at h
  obtain ⟨i, -, hzero⟩ := List.mem_map.1 h
  refine hexDigit_ne ?_ hzero
  rw [UInt64.toNat_and]
  exact Nat.lt_of_le_of_lt Nat.and_le_right (by decide)

theorem skipText_add (h : ∀ i < n, mem (s + i) ≠ some 0) : skipText mem n s = s + n := by
  induction n generalizing s with
  | zero => rfl
  | succ n ih =>
    have hhead : mem s ≠ some 0 := h 0 (Nat.succ_pos n)
    rw [skipText, if_neg hhead, ih, Nat.add_assoc, Nat.add_comm 1]
    intro i hi
    rw [Nat.add_assoc, Nat.add_comm 1]
    exact h (i + 1) (by omega)

/-- The buffer with a text in it, and a NUL behind it or nothing yet. -/
def bufferOf (out : List UInt8) (ended : Bool) (n : Nat) : Buffer :=
  ⟨fun k => (out ++ if ended then [0] else [])[k]?, out.length, n⟩

/-- What is written behind the text takes the place of the NUL. -/
theorem copyTo_bufferOf (hne : bytes ≠ []) :
    copyTo (bufferOf out ended n).mem out.length (bytes.map some) = fun k => (out ++ bytes)[k]? := by
  funext k
  have hlen := List.length_pos_of_ne_nil hne
  have hmem : (bufferOf out ended n).mem k = (out ++ if ended then [0] else [])[k]? := rfl
  unfold copyTo
  rw [hmem]
  by_cases hk : out.length ≤ k
  · rw [if_pos hk, List.getElem?_map, List.getElem?_append_right hk, List.getElem?_append_right hk]
    by_cases hin : k - out.length < bytes.length
    · rw [List.getElem?_eq_getElem hin]
      rfl
    · rw [List.getElem?_eq_none (Nat.le_of_not_lt hin)]
      refine List.getElem?_eq_none ?_
      split_ifs
      · rw [List.length_singleton]
        omega
      · exact Nat.zero_le _
  · rw [if_neg hk, List.getElem?_append_left (by omega), List.getElem?_append_left (by omega)]

theorem putString_bufferOf (h : 0 ∉ bytes) :
    putString bytes (bufferOf out ended n) = bufferOf (out ++ bytes) true (n + 1) := by
  have hmem : copyTo (bufferOf out ended n).mem out.length ((bytes ++ [0]).map some) =
      fun k => (out ++ (bytes ++ [0]))[k]? := copyTo_bufferOf (by simp)
  have hskip : skipText (fun k => (out ++ (bytes ++ [0]))[k]?) bytes.length out.length = out.length + bytes.length := by
    refine skipText_add fun i hi hzero => h ?_
    rw [List.getElem?_append_right (by omega), Nat.add_sub_cancel_left, List.getElem?_append_left hi] at hzero
    exact List.mem_of_getElem? hzero
  change Buffer.mk (copyTo _ out.length _) (skipText (copyTo _ out.length _) _ out.length) _ = _
  rw [hmem, hskip, ← List.append_assoc, ← List.length_append]
  rfl

theorem putChar_bufferOf (c : UInt8) (next : Nat) :
    (⟨copyTo (bufferOf out ended n).mem (bufferOf out ended n).s [some c], (bufferOf out ended n).s + 1, next⟩ : Buffer) =
      bufferOf (out ++ [c]) false next := by
  have hmem : copyTo (bufferOf out ended n).mem out.length [some c] = fun k => (out ++ [c])[k]? :=
    @copyTo_bufferOf out [c] ended n (by simp)
  change Buffer.mk (copyTo _ out.length _) (out.length + 1) _ = _
  rw [hmem, bufferOf]
  simp

theorem writeString_ne {word : UInt64} : 0 ∉ writeString a word := by
  unfold writeString
  split_ifs
  · decide
  · exact a.string_ne word

/-- One piece written to the buffer. -/
theorem vsnprintfConvert_bufferOf {conversion : Conversion} (hnull : conversion = .string → a.word n ≠ 0) :
    vsnprintfConvert a conversion (bufferOf out ended n) =
      some (bufferOf (out ++ conversion.bytes a true (a.word n)) (conversion ≠ .char) (n + 1)) := by
  cases conversion with
  | char =>
    exact congrArg some (putChar_bufferOf _ _)
  | string =>
    have hstring : writeString a (a.word n) = a.string (a.word n) := if_neg (hnull rfl)
    refine (if_neg (hnull rfl)).trans ?_
    rw [Conversion.bytes, hstring]
    exact congrArg some (putString_bufferOf (a.string_ne _))
  | hex | pointer | longHex => exact congrArg some (putString_bufferOf hexText_ne)
  | int | unsigned | long | longUnsigned => exact congrArg some (putString_bufferOf decimalText_ne)

/-- The pieces in a buffer: their text, and a NUL where they end in a string. -/
theorem foldlM_buffer (hnull : NoNull a ps n) :
    ∃ m, List.foldlM (vsnprintfFormatter a).piece (bufferOf out ended n) ps =
      some (bufferOf (out ++ texts a true ps n) (endsInString ended ps) m) := by
  induction ps generalizing out ended n with
  | nil => exact ⟨n, by simp [texts, endsInString]⟩
  | cons p ps ih =>
    rw [List.foldlM_cons]
    match p with
    | .text c =>
      obtain ⟨m, hm⟩ := @ih (out ++ [c]) false n hnull
      refine ⟨m, ?_⟩
      rw [texts, endsInString, ← List.singleton_append, ← List.append_assoc, ← hm]
      exact congrArg (fun b => List.foldlM _ b ps) (putChar_bufferOf c n)
    | .directive none => exact @ih out ended n hnull
    | .directive (some conversion) =>
      obtain ⟨m, hm⟩ := @ih (out ++ conversion.bytes a true (a.word n)) (conversion ≠ .char) (n + 1) hnull.2
      refine ⟨m, ?_⟩
      rw [texts, endsInString, ← List.append_assoc, ← hm]
      change Option.bind (vsnprintfConvert a conversion (bufferOf out ended n)) _ = _
      rw [vsnprintfConvert_bufferOf hnull.1]
      rfl

theorem next_of_convert {conversion : Conversion} {b b' : Buffer} (h : vsnprintfConvert a conversion b = some b') :
    b'.next = b.next + 1 := by
  cases conversion with
  | string =>
    obtain ⟨-, h⟩ := Option.ite_none_left_eq_some.1 h
    exact (congrArg Buffer.next (Option.some.inj h)).symm
  | _ => exact (congrArg Buffer.next (Option.some.inj h)).symm

/-- A null pointer is followed. -/
theorem noNull_of_foldlM {b b' : Buffer} (h : List.foldlM (vsnprintfFormatter a).piece b ps = some b') :
    NoNull a ps b.next := by
  induction ps generalizing b with
  | nil => trivial
  | cons p ps ih =>
    rw [List.foldlM_cons] at h
    obtain ⟨b₁, h₁, h⟩ := Option.bind_eq_some_iff.1 h
    have hrest := ih h
    match p with
    | .text c =>
      obtain rfl := Option.some.inj h₁
      exact hrest
    | .directive none =>
      obtain rfl := Option.some.inj h₁
      exact hrest
    | .directive (some conversion) =>
      change vsnprintfConvert a conversion b = some b₁ at h₁
      have hnext : b₁.next = b.next + 1 := next_of_convert h₁
      refine ⟨?_, hnext ▸ hrest⟩
      rintro rfl hzero
      change (if a.word b.next = 0 then none else _) = some b₁ at h₁
      rw [if_pos hzero] at h₁
      cases h₁

theorem vsnprintf_of_splits (h : Splits format ps) (hnull : NoNull a ps 0) (size : Nat) :
    vsnprintf a size format =
      some fun k => (texts a true ps 0 ++ if endsInString false ps then [0] else [])[k]? := by
  have hstart : (⟨fun _ => none, 0, 0⟩ : Buffer) = bufferOf [] false 0 := rfl
  obtain ⟨m, hm⟩ := @foldlM_buffer a ps [] false 0 hnull
  rw [vsnprintf, loop_of_splits _ h, hstart, hm]
  rfl

theorem noNull_of_vsnprintf {size : Nat} (hsplits : Splits format ps) (h : vsnprintf a size format = some mem) :
    NoNull a ps 0 := by
  obtain ⟨b, hb, -⟩ := Option.map_eq_some_iff.1 h
  rw [loop_of_splits _ hsplits] at hb
  exact noNull_of_foldlM hb

end Texts

/-! ## Strings in the buffer -/

section Strings

variable {l l' : List UInt8} {n size : Nat}

theorem zero_notMem_cString : 0 ∉ cString l := fun h => by
  have := List.mem_takeWhile_imp h
  simp at this

theorem cString_append_zero : cString (l ++ 0 :: l') = cString l := by
  induction l with
  | nil => rfl
  | cons c l ih =>
    unfold cString at ih ⊢
    rw [List.cons_append, List.takeWhile_cons, List.takeWhile_cons, ih]

theorem cString_eq_self (h : 0 ∉ l) : cString l = l := by
  refine List.takeWhile_eq_self_iff.2 fun c hc => ?_
  simp only [ne_eq, decide_eq_true_eq]
  exact fun hzero => h (hzero ▸ hc)

/-- A NUL in the buffer behind a text without one. -/
theorem exists_nul_iff (hsize : l.length ≤ size) (h : 0 ∉ l') :
    (∃ n < size, l[n]? = some 0 ∧ ((List.range n).map fun k => l[k]?) = l'.map some) ↔ 0 ∈ l ∧ cString l = l' := by
  have hrange : ∀ n ≤ l.length, ((List.range n).map fun k => l[k]?) = (l.take n).map some := by
    intro n hn
    refine List.ext_getElem? fun i => ?_
    rw [List.getElem?_map, List.getElem?_map, List.getElem?_take]
    by_cases hi : i < n
    · rw [if_pos hi, List.getElem?_range hi, List.getElem?_eq_getElem (hi.trans_le hn)]
      exact congrArg some (List.getElem?_eq_getElem (hi.trans_le hn))
    · rw [if_neg hi, List.getElem?_eq_none (by simp; omega)]
      rfl
  constructor
  · rintro ⟨n, -, hzero, hmap⟩
    obtain ⟨hlt, hget⟩ := List.getElem?_eq_some_iff.1 hzero
    rw [hrange n hlt.le] at hmap
    have htake : l.take n = l' := List.map_injective_iff.2 (Option.some_injective _) hmap
    refine ⟨List.mem_of_getElem? hzero, ?_⟩
    rw [← List.take_append_drop n l, List.drop_eq_getElem_cons hlt, hget, cString_append_zero, htake]
    exact cString_eq_self h
  · rintro ⟨hmem, rfl⟩
    obtain ⟨rest, hrest⟩ : ∃ rest, l = cString l ++ 0 :: rest := by
      have hsplit := (List.takeWhile_append_dropWhile (p := (· ≠ (0 : UInt8))) (l := l)).symm
      cases hdrop : l.dropWhile (· ≠ 0) with
      | nil =>
        rw [hdrop, List.append_nil] at hsplit
        exact absurd (hsplit ▸ hmem) zero_notMem_cString
      | cons c rest =>
        have hhead := List.head?_dropWhile_not (· ≠ (0 : UInt8)) l
        rw [hdrop] at hhead hsplit
        obtain rfl : c = 0 := by simpa using hhead
        exact ⟨rest, hsplit⟩
    generalize cString l = text at hrest ⊢
    have hlen : text.length < l.length := by
      rw [hrest, List.length_append, List.length_cons]
      omega
    refine ⟨text.length, hlen.trans_le hsize, ?_, ?_⟩
    · rw [hrest, List.getElem?_append_right le_rfl, Nat.sub_self]
      rfl
    · rw [hrange _ hlen.le, hrest, List.take_left]

end Strings

/-! ## When it holds -/

/-- The text with its NUL fits, and there is a NUL: behind a string or number at the end, or as a character; up to it the
text is that of `vfprintf`. -/
def Fits (a : Args) (size : Nat) (ps : List Piece) : Prop :=
  (texts a true ps 0).length + (if endsInString false ps then 1 else 0) ≤ size ∧
    (0 < size → (endsInString false ps = true ∨ 0 ∈ texts a true ps 0) ∧
      cString (texts a true ps 0) = cString ((texts a false ps 0).take (size - 1)))

/-- Every `long` argument is an `int`. -/
def LongsFit (a : Args) : List Piece → Nat → Prop
  | [], _ => True
  | .text _ :: ps, n => LongsFit a ps n
  | .directive none :: ps, n => LongsFit a ps n
  | .directive (some conversion) :: ps, n =>
    (conversion = .long → asInt (a.word n) = a.word n) ∧ LongsFit a ps (n + 1)

theorem texts_of_longsFit {a : Args} {ps : List Piece} {n : Nat} (h : LongsFit a ps n) :
    texts a true ps n = texts a false ps n := by
  induction ps generalizing n with
  | nil => rfl
  | cons p ps ih =>
    match p with
    | .text c => rw [texts, texts, ih h]
    | .directive none => exact ih h
    | .directive (some conversion) =>
      rw [texts, texts, ih h.2]
      congr 1
      cases conversion with
      | long => exact congrArg decimalText (h.1 rfl)
      | _ => rfl

/-- It is enough that the directives end the format, print `long` arguments that are `int`s, and fit. -/
theorem fits_of_longsFit {a : Args} {size : Nat} {ps : List Piece} (hlongs : LongsFit a ps 0)
    (hends : endsInString false ps = true) (hlt : (texts a false ps 0).length < size) : Fits a size ps := by
  refine ⟨?_, fun _ => ⟨.inl hends, ?_⟩⟩
  · rw [texts_of_longsFit hlongs, if_pos hends]
    exact hlt
  · rw [texts_of_longsFit hlongs, List.take_of_length_le (by omega)]

/-- The formatters do what they should exactly when no directive is cut by the end of the format, no string is null, and
the text fits. -/
theorem formats_iff (a : Args) (size : Nat) (format : List UInt8) :
    Formats a size format ↔ ∃ ps, Splits format ps ∧ NoNull a ps 0 ∧ Fits a size ps := by
  have key : ∀ ps, Splits format ps → NoNull a ps 0 → (Formats a size format ↔ Fits a size ps) := by
    intro ps hsplits hnull
    unfold Formats Fits
    rw [vfprintf_of_splits hsplits, vsnprintf_of_splits hsplits hnull]
    simp only [Option.some.injEq, exists_and_left, exists_eq_left']
    have hlength : (texts a true ps 0 ++ if endsInString false ps then [0] else []).length =
        (texts a true ps 0).length + if endsInString false ps then 1 else 0 := by
      rw [List.length_append, apply_ite List.length]
      rfl
    have hmem : 0 ∈ (texts a true ps 0 ++ if endsInString false ps then [0] else []) ↔
        endsInString false ps = true ∨ 0 ∈ texts a true ps 0 := by
      rw [List.mem_append, or_comm]
      refine or_congr_left ?_
      split_ifs with hends
      · simp [hends]
      · simp [hends]
    have hcString : cString (texts a true ps 0 ++ if endsInString false ps then [0] else []) =
        cString (texts a true ps 0) := by
      split_ifs
      · exact cString_append_zero
      · rw [List.append_nil]
    rw [← hlength, ← hmem, ← hcString]
    generalize (texts a true ps 0 ++ if endsInString false ps then [0] else []) = l
    constructor
    · rintro ⟨hbound, hnul⟩
      have hsize : l.length ≤ size := by
        by_contra hlt
        have := hbound size (by rw [List.getElem?_eq_getElem (by omega)]; rfl)
        omega
      exact ⟨hsize, fun hpos => (exists_nul_iff hsize zero_notMem_cString).1 (hnul hpos)⟩
    · rintro ⟨hsize, hnul⟩
      refine ⟨fun k hk => ?_, fun hpos => (exists_nul_iff hsize zero_notMem_cString).2 (hnul hpos)⟩
      obtain ⟨x, hx⟩ := Option.isSome_iff_exists.1 hk
      exact (List.getElem?_eq_some_iff.1 hx).1.trans_le hsize
  constructor
  · intro hformats
    obtain ⟨out, mem, hout, hmem, -⟩ := id hformats
    obtain ⟨s, hloop, -⟩ := Option.map_eq_some_iff.1 hout
    obtain ⟨ps, hsplits⟩ := splits_of_loop _ hloop
    have hnull := noNull_of_vsnprintf hsplits hmem
    exact ⟨ps, hsplits, hnull, (key ps hsplits hnull).1 hformats⟩
  · rintro ⟨ps, hsplits, hnull, hfits⟩
    exact (key ps hsplits hnull).2 hfits

def sampleArgs : Args := ⟨fun _ => 5, fun _ => [], fun _ => List.not_mem_nil⟩

/-- `"a"` is left without a NUL, `"%d"` writes two bytes into a buffer of one, and behind `"%"` the format is read on. -/
theorem formats_not : ¬ Formats sampleArgs 8 ['a'.toUInt8] ∧ ¬ Formats sampleArgs 1 [percent, 'd'.toUInt8] ∧
    ¬ Formats sampleArgs 8 [percent] := by
  have htext : Splits ['a'.toUInt8] [.text 'a'.toUInt8] := .text (by decide) .nil
  have hint : Splits [percent, 'd'.toUInt8] [.directive (some .int)] :=
    @Splits.letter [] 'd'.toUInt8 [] [] (by simp) (by decide) (by decide) .nil
  refine ⟨?_, ?_, ?_⟩
  · rintro ⟨out, mem, -, hmem, -, hnul⟩
    rw [vsnprintf_of_splits htext trivial] at hmem
    obtain rfl := Option.some.inj hmem
    obtain ⟨n, -, hzero, -⟩ := hnul (by decide)
    exact absurd (List.mem_of_getElem? hzero) (by decide)
  · rintro ⟨out, mem, -, hmem, hbound, -⟩
    rw [vsnprintf_of_splits hint ⟨by simp, trivial⟩] at hmem
    obtain rfl := Option.some.inj hmem
    exact absurd (hbound 1 rfl) (by decide)
  · rintro ⟨out, mem, hout, -⟩
    have hnone : (vfprintfFormatter sampleArgs).loop [percent] ⟨[], 0⟩ = none := by
      rw [Formatter.loop]
      rfl
    rw [vfprintf, hnone] at hout
    cases hout

end Egalito.Cminus
