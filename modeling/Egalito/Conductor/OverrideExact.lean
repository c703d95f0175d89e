import Egalito.Conductor.OverrideLines
/-!
# Exactly the well-formed overrides

Where the readers of headers and entries agree with what the lines say, and the
theorem about whole files.
-/

open Egalito.Lib

namespace Egalito.ParseOverride

/-! ## Entries -/

theorem parseEntry_of_entryOf {line : Text} {start size : UInt64} (h : entryOf line = some (start, size)) :
    parseEntry line = (some start, some size) := by
  rw [entryOf] at h
  split at h
  · rename_i w₁ w₂ hwords
    obtain ⟨v₁, hv₁, h⟩ := Option.bind_eq_some_iff.1 h
    obtain ⟨v₂, hv₂, h⟩ := Option.map_eq_some_iff.1 h
    cases h
    have hleft : (TextStream.ofText line).left = [w₁, w₂] := hwords
    obtain ⟨s₁, hread₁, hleft₁⟩ := TextStream.readInt_of_numeral (Nat.le_refl 16) hleft hv₁
    obtain ⟨s₂, hread₂, -⟩ := TextStream.readInt_of_numeral (Nat.le_refl 16) hleft₁ hv₂
    simp only [parseEntry, hread₁, hread₂]
  · cases h

theorem entries_eq_iff (lines : List Text) :
    (lines.filterMap entryOf).map (fun (start, size) => (some start, some size)) = lines.map parseEntry ↔
      ∀ line ∈ lines, (entryOf line).isSome := by
  constructor
  · intro h line hline
    have hlen : (lines.filterMap entryOf).length = lines.length := by simpa using congrArg List.length h
    exact (List.filterMap_length_eq_length.1 hlen) line hline
  · intro h
    induction lines with
    | nil => rfl
    | cons line lines ih =>
      obtain ⟨⟨start, size⟩, hentry⟩ := Option.isSome_iff_exists.1 (h line List.mem_cons_self)
      rw [List.filterMap_cons_some hentry, List.map_cons, List.map_cons, parseEntry_of_entryOf hentry,
        ih fun l hl => h l (List.mem_cons_of_mem _ hl)]

/-! ## Addresses -/

theorem digitsValue_append (base : Nat) (ds es : Text) :
    digitsValue base (ds ++ es) = es.foldl (fun n c => n * base + digitValue c) (digitsValue base ds) := by
  rw [digitsValue, List.foldl_append]
  rfl

theorem le_foldl_digits {base : Nat} (hb : 0 < base) (es : Text) (n : Nat) :
    n ≤ es.foldl (fun n c => n * base + digitValue c) n := by
  induction es generalizing n with
  | nil => exact Nat.le_refl n
  | cons c es ih =>
    have hn : n ≤ n * base := Nat.le_mul_of_pos_right n hb
    exact (hn.trans (Nat.le_add_right _ _)).trans (ih _)

theorem digitsValue_mono {b b' : Nat} (hb : b ≤ b') (ds : Text) : digitsValue b ds ≤ digitsValue b' ds := by
  suffices ∀ n n', n ≤ n' → ds.foldl (fun n c => n * b + digitValue c) n ≤
      ds.foldl (fun n c => n * b' + digitValue c) n' from this 0 0 (Nat.le_refl 0)
  induction ds with
  | nil => exact fun n n' h => h
  | cons c ds ih => exact fun n n' h => ih _ _ (Nat.add_le_add_right (Nat.mul_le_mul h hb) _)

/-- A hexadecimal number, with `0x` or without. -/
theorem numeral_hex_cases {w : Text} {v : UInt64} (h : numeral 16 w = some v) :
    (∃ x ds, (x = 'x' ∨ x = 'X') ∧ w = '0' :: x :: ds ∧ ∀ c ∈ ds, isDigit 16 c) ∨
    (w ≠ [] ∧ (∀ c ∈ w, isDigit 16 c) ∧ digitsValue 16 w < 2 ^ 64 ∧ v = UInt64.ofNat (digitsValue 16 w)) := by
  rw [numeral] at h
  split_ifs at h with hw
  obtain ⟨hne, hall, hlt⟩ := hw
  rw [List.all_eq_true] at hall
  rcases w with _ | ⟨c, _ | ⟨x, ds⟩⟩
  · exact absurd rfl hne
  · exact .inr ⟨hne, hall, hlt, (Option.some.inj h).symm⟩
  · by_cases hx : c = '0' ∧ (x = 'x' ∨ x = 'X')
    · obtain ⟨rfl, hx⟩ := hx
      rw [dropBasePrefix, if_pos ⟨rfl, rfl, hx⟩] at hall
      exact .inl ⟨x, ds, hx, rfl, hall⟩
    · rw [dropBasePrefix, if_neg fun h => hx h.2] at hall hlt h
      exact .inr ⟨List.cons_ne_nil _ _, hall, hlt, (Option.some.inj h).symm⟩

/-- Reading a number without sign or `0x` in decimal. -/
theorem extractInt_decimal {w : Text} (hw : ∀ c ∈ w, c ≠ '-' ∧ c ≠ '+') :
    extractInt 10 w =
      let ds := w.takeWhile (isDigit 10)
      let rest := w.dropWhile (isDigit 10)
      if ds = [] then ⟨0, false, rest⟩
      else if 2 ^ 64 ≤ digitsValue 10 ds then ⟨0xffffffffffffffff, false, rest⟩
      else ⟨UInt64.ofNat (digitsValue 10 ds), true, rest⟩ := by
  have hsign : dropSign w = (false, w) := by
    cases w with
    | nil => rfl
    | cons c cs => rw [dropSign, if_neg (hw c List.mem_cons_self).1, if_neg (hw c List.mem_cons_self).2]
  have hbase : dropBasePrefix 10 w = w := by
    rw [dropBasePrefix.eq_def]
    split
    · rw [if_neg fun h => absurd h.1 (by decide)]
    · rfl
  simp only [extractInt, hsign, hbase]
  rfl

theorem not_sign_of_isDigit {c : Char} (h : isDigit 16 c = true) : c ≠ '-' ∧ c ≠ '+' := by
  constructor <;> rintro rfl <;> revert h <;> decide

/-- Only characters of hexadecimal numbers are left. -/
theorem mem_extractInt_rest {w : Text} {v : UInt64} (h : numeral 16 w = some v) :
    ∀ c ∈ (extractInt 10 w).rest, isDigit 16 c = true ∨ c = 'x' ∨ c = 'X' := by
  have hmem : ∀ c ∈ w, (isDigit 16 c = true ∨ c = 'x' ∨ c = 'X') ∧ c ≠ '-' ∧ c ≠ '+' := by
    intro c hc
    rcases numeral_hex_cases h with ⟨x, ds, hx, rfl, hds⟩ | ⟨-, hall, -⟩
    · rcases List.mem_cons.1 hc with rfl | hc
      · exact ⟨.inl (by decide), by decide⟩
      rcases List.mem_cons.1 hc with rfl | hc
      · rcases hx with rfl | rfl
        · exact ⟨.inr (.inl rfl), by decide⟩
        · exact ⟨.inr (.inr rfl), by decide⟩
      · exact ⟨.inl (hds c hc), not_sign_of_isDigit (hds c hc)⟩
    · exact ⟨.inl (hall c hc), not_sign_of_isDigit (hall c hc)⟩
  have hrest : (extractInt 10 w).rest = w.dropWhile (isDigit 10) := by
    rw [extractInt_decimal fun c hc => (hmem c hc).2]
    dsimp only
    split_ifs <;> rfl
  intro c hc
  rw [hrest] at hc
  exact (hmem c ((List.dropWhile_sublist _).subset hc)).1

/-- A hexadecimal number that is the same in decimal can be read in decimal. -/
theorem ok_of_sameInDecimal {w : Text} (h : SameInDecimal w) : (extractInt 10 w).ok = true := by
  rcases numeral_hex_cases h with ⟨x, ds, hx, rfl, -⟩ | ⟨hne, hall, hlt, hv⟩
  · rcases hx with rfl | rfl <;> rfl
  · rw [extractInt_decimal fun c hc => not_sign_of_isDigit (hall c hc)] at hv ⊢
    dsimp only at hv ⊢
    split_ifs at hv ⊢ with hds hbig
    · -- no decimal digit in front: the value 0 is not that of the number
      obtain ⟨c, cs, rfl⟩ := List.exists_cons_of_ne_nil hne
      have hc : 10 ≤ digitValue c := by
        by_contra hlt10
        have : isDigit 10 c = true := by simp [isDigit]; omega
        rw [List.takeWhile_cons_of_pos this] at hds
        cases hds
      have hpos : digitValue c ≤ digitsValue 16 (c :: cs) := by
        have hle : 0 * 16 + digitValue c ≤ digitsValue 16 (c :: cs) := le_foldl_digits (by decide) cs _
        omega
      have h0 := congrArg UInt64.toNat hv
      rw [UInt64.toNat_ofNat_of_lt' hlt] at h0
      change 0 = _ at h0
      omega
    · -- the decimal value is at most the hexadecimal one
      have hle : digitsValue 10 (w.takeWhile (isDigit 10)) ≤ digitsValue 16 w := by
        have h16 : digitsValue 10 (w.takeWhile (isDigit 10)) ≤ digitsValue 16 (w.takeWhile (isDigit 10)) :=
          digitsValue_mono (by decide) _
        refine h16.trans ?_
        conv => rhs; rw [← List.takeWhile_append_dropWhile (p := isDigit 10) (l := w), digitsValue_append]
        exact le_foldl_digits (by decide) _ _
      omega
    · rfl

/-! ## Headers -/

def OverrideContext.over (context base : OverrideContext) : OverrideContext :=
  ⟨context.module.or base.module, context.func.or base.func, context.address.or base.address⟩

theorem contextOf_address_none {ws : List Text} {context : OverrideContext} (h : contextOf ws = some context)
    (haddress : context.address = none) : addressArgs ws = [] := by
  induction ws using contextOf.induct generalizing context with
  | case1 => rfl
  | case2 => rfl
  | case3 type arg rest ih =>
    rw [contextOf, Option.bind_eq_bind, Option.bind_eq_some_iff] at h
    obtain ⟨context', hrest, h⟩ := h
    rw [addressArgs]
    split_ifs at h with h₁ h₂ h₃
    · cases h
      rw [if_neg (by rw [h₁.1]; decide)]
      exact ih hrest haddress
    · cases h
      rw [if_neg (by rw [h₂.1]; decide)]
      exact ih hrest haddress
    · obtain ⟨v, -, h⟩ := Option.bind_eq_some_iff.1 h
      cases h
      cases haddress

/-- What decimal reading leaves of a number is at most one word, and no context type. -/
theorem words_extractInt_rest {w : Text} {v : UInt64} (h : numeral 16 w = some v) :
    words (extractInt 10 w).rest = [] ∨ ∃ rest, words (extractInt 10 w).rest = [rest] ∧
      rest ≠ "module".toList ∧ rest ≠ "func".toList ∧ rest ≠ "address".toList := by
  have hmem := mem_extractInt_rest h
  generalize (extractInt 10 w).rest = rest at hmem
  cases rest with
  | nil => exact .inl rfl
  | cons c cs =>
    have hword : ∀ d ∈ c :: cs, wordChar d = true := by
      intro d hd
      rcases hmem d hd with hd | rfl | rfl
      · exact isDigit_wordChar (Nat.le_refl 16) hd
      · decide
      · decide
    refine .inr ⟨c :: cs, ?_, ?_, ?_, ?_⟩
    · rw [words_cons (hword c List.mem_cons_self), List.takeWhile_eq_self_iff.2 hword,
        List.dropWhile_eq_nil_iff.2 hword]
      rfl
    · exact fun he => absurd (hmem 'm' (by simp [he])) (by decide)
    · exact fun he => absurd (hmem 'n' (by simp [he])) (by decide)
    · exact fun he => absurd (hmem 'r' (by simp [he])) (by decide)

theorem parseContextWords_nil {c : ContextState} (h : c.ss.left = []) (count : Nat) :
    parseContextWords count c = c.context := by
  cases count with
  | zero => rfl
  | succ count => rw [parseContextWords, TextStream.readWord_of_nil h]

/-- One round of the loop. -/
theorem parseContextWords_cons {c : ContextState} {w : Text} {ws : List Text} {count : Nat}
    (h : c.ss.left = w :: ws) (hcount : c.ss.rest.length ≤ count) :
    ∃ count' ss, ss.left = ws ∧ ss.rest.length ≤ count' ∧
      parseContextWords count c = parseContextWords count' (c.next w ss) := by
  obtain ⟨ss, hread, hleft⟩ := TextStream.readWord_of_cons h
  have hlen := TextStream.length_readWord hread
  obtain ⟨count, rfl⟩ : ∃ n, count = n + 1 := ⟨count - 1, by omega⟩
  exact ⟨count, ss, hleft, by omega, by rw [parseContextWords, hread]⟩

/-- The context words of a well-formed header, read from a context that earlier words gave. -/
theorem parseContextWords_iff {ws : List Text} {context : OverrideContext} (h : contextOf ws = some context)
    {c : ContextState} (hleft : c.ss.left = ws) {count : Nat} (hcount : c.ss.rest.length ≤ count) :
    parseContextWords count c = context.over c.context ↔ ∀ number ∈ addressArgs ws, SameInDecimal number := by
  induction ws using contextOf.induct generalizing context c count with
  | case1 =>
    cases h
    rw [parseContextWords_nil hleft]
    exact iff_of_true rfl fun _ h => nomatch h
  | case2 => cases h
  | case3 type arg rest ih =>
    rw [contextOf, Option.bind_eq_bind, Option.bind_eq_some_iff] at h
    obtain ⟨context', hrest, h⟩ := h
    obtain ⟨count, ss, hss, hlen, hrun⟩ := parseContextWords_cons hleft hcount
    rw [hrun, addressArgs]
    split_ifs at h with h₁ h₂ h₃
    · obtain ⟨rfl, hnone⟩ := h₁
      cases h
      obtain ⟨ss', hread, hss'⟩ := TextStream.readWord_of_cons hss
      have hlen' := TextStream.length_readWord hread
      have hnext : c.next "module".toList ss =
          ⟨ss', arg, c.addr, { c.context with module := some ("module-".toList ++ arg) }⟩ := by
        simp [ContextState.next, hread]
      have hih := @ih _ hrest (c.next "module".toList ss) (by rw [hnext]; exact hss') count
        (by rw [hnext]; exact hlen'.le.trans hlen)
      rw [if_neg (by decide), ← hih, hnext]
      simp [OverrideContext.over, hnone]
    · obtain ⟨rfl, hnone⟩ := h₂
      cases h
      obtain ⟨ss', hread, hss'⟩ := TextStream.readWord_of_cons hss
      have hlen' := TextStream.length_readWord hread
      have hnext : c.next "func".toList ss = ⟨ss', arg, c.addr, { c.context with func := some arg }⟩ := by
        simp [ContextState.next, hread]
      have hih := @ih _ hrest (c.next "func".toList ss) (by rw [hnext]; exact hss') count
        (by rw [hnext]; exact hlen'.le.trans hlen)
      rw [if_neg (by decide), ← hih, hnext]
      simp [OverrideContext.over, hnone]
    · obtain ⟨rfl, hnone⟩ := h₃
      obtain ⟨v, hv, h⟩ := Option.bind_eq_some_iff.1 h
      cases h
      obtain ⟨ss', hread, hss'⟩ := TextStream.readInt_of_cons (by decide : 10 ≤ 16) hss
      have hlen' := TextStream.length_readInt hread
      have hnext : c.next "address".toList ss = ⟨ss', c.str, some (extractInt 10 arg).value,
          { c.context with address := some (some (extractInt 10 arg).value) }⟩ := by
        simp [ContextState.next, hread]
      have hnil := contextOf_address_none hrest hnone
      have hsame : SameInDecimal arg ↔ (extractInt 10 arg).value = v := by
        rw [SameInDecimal, hv, Option.some.injEq, eq_comm]
      rw [if_pos rfl, hnil, List.forall_mem_singleton, hnext]
      cases hok : (extractInt 10 arg).ok with
      | false =>
        -- the stream has failed: the number stays as it is, and the rest is not read
        rw [hok] at hss'
        rw [parseContextWords_nil hss']
        refine iff_of_false (fun he => ?_) fun hs => absurd (ok_of_sameInDecimal hs) (by rw [hok]; decide)
        have haddr : (extractInt 10 arg).value = v := by
          simpa [OverrideContext.over] using congrArg OverrideContext.address he
        exact absurd (ok_of_sameInDecimal (hsame.2 haddr)) (by rw [hok]; decide)
      | true =>
        rw [hok, if_pos rfl] at hss'
        have hrun : ∀ (c : ContextState) count, c.ss.left = rest → c.ss.rest.length ≤ count →
            parseContextWords count c = context'.over c.context := by
          intro c count hleft hcount
          refine (ih hrest hleft hcount).2 ?_
          rw [hnil]
          exact fun _ h => nomatch h
        have hread : parseContextWords count ⟨ss', c.str, some (extractInt 10 arg).value,
            { c.context with address := some (some (extractInt 10 arg).value) }⟩ =
            context'.over { c.context with address := some (some (extractInt 10 arg).value) } := by
          rcases words_extractInt_rest hv with hw | ⟨w, hw, h₁, h₂, h₃⟩
          · rw [hw, List.nil_append] at hss'
            exact hrun _ _ hss' (hlen'.trans hlen)
          · -- the letters behind the decimal digits are an unknown context type
            rw [hw, List.singleton_append] at hss'
            obtain ⟨count', ss'', hss'', hlen'', hround⟩ := @parseContextWords_cons
              ⟨ss', c.str, some (extractInt 10 arg).value, _⟩ w rest count hss' (hlen'.trans hlen)
            rw [hround]
            simp only [ContextState.next, h₁, h₂, h₃, if_false]
            exact hrun _ _ hss'' hlen''
        rw [hread, hsame]
        simp [OverrideContext.over, hnone]

theorem parseHeader_context_iff {line : Text} {context : OverrideContext} (hline : isHeader line = true)
    (h : contextOf (words line).tail = some context) :
    (parseHeader line).2 = context ↔ ∀ number ∈ addressArgs (words line).tail, SameInDecimal number := by
  rw [isHeader] at hline
  cases hwords : words line with
  | nil =>
    rw [hwords] at hline
    cases hline
  | cons w ws =>
    rw [hwords, List.tail_cons] at h
    have hleft : (TextStream.ofText line).left = w :: ws := hwords
    obtain ⟨ss, hread, hss⟩ := TextStream.readWord_of_cons hleft
    have hiff := parseContextWords_iff (c := ⟨ss, [], none, ⟨none, none, none⟩⟩) h hss (Nat.le_refl _)
    have hover : context.over ⟨none, none, none⟩ = context := by simp [OverrideContext.over]
    rw [hover] at hiff
    simpa only [parseHeader, hread, List.tail_cons] using hiff

/-! ## Files -/

theorem blockOf_eq_iff {block : Text × List Text} (hheader : isHeader block.1 = true) :
    blockOf block = some (storedBlock block) ↔
      HeaderReadable block.1 ∧ ∀ line ∈ block.2, (entryOf line).isSome := by
  rw [HeaderReadable, ← entries_eq_iff, blockOf, storedBlock]
  cases h : contextOf (words block.1).tail with
  | none => simp
  | some context =>
    rw [← parseHeader_context_iff hheader h]
    simp [eq_comm]

/-- What is read is what is there, block by block. -/
theorem map_eq_filterMap_iff {α β : Type} {f : α → β} {g : α → Option β} (l : List α) :
    l.map f = l.filterMap g ↔ ∀ x ∈ l, g x = some (f x) := by
  constructor
  · intro h
    have hsome := List.filterMap_length_eq_length.1 (by rw [← h, List.length_map] : (l.filterMap g).length = l.length)
    induction l with
    | nil => exact fun _ h => nomatch h
    | cons x l ih =>
      obtain ⟨b, hb⟩ := Option.isSome_iff_exists.1 (hsome x List.mem_cons_self)
      rw [List.map_cons, List.filterMap_cons_some hb, List.cons.injEq] at h
      rw [List.forall_mem_cons, hb, h.1]
      exact ⟨rfl, ih h.2 fun y hy => hsome y (List.mem_cons_of_mem _ hy)⟩
  · intro h
    induction l with
    | nil => rfl
    | cons x l ih =>
      rw [List.map_cons, List.filterMap_cons_some (h x List.mem_cons_self),
        ih fun y hy => h y (List.mem_cons_of_mem _ hy)]

/-- A block of one entry, at the end of a file without a last newline. -/
def unfinishedFile : Text := "blockoverride func f\n  0x0 0x50".toList

end Egalito.ParseOverride
