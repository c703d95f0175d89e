import Egalito.Elf.SymbolAlias
import Egalito.Lib.Forest
/-!
# When aliases are canonical

The first pass makes every symbol of an address group point to the root of its
tree. The second pass adds names to that without looking at the groups, so the
result is canonical only where the names fit the groups.
-/

open Egalito.Lib

namespace Egalito.Elf

/-! ## Roots -/

theorem parent_findLoop {parent : Nat → Nat} {count x : Nat} (h : RootedAt parent count x) :
    parent (findLoop parent count x) = findLoop parent count x := by
  induction count generalizing x with
  | zero => exact h
  | succ count ih =>
    rw [findLoop]
    split_ifs with hx
    · exact hx
    · exact ih h

/-- Every path ends in a root, and the positions of the list stay among themselves. -/
structure Forest (n : Nat) (uf : UnionFind) : Prop where
  rooted : ∀ x, RootedAt uf.parent uf.edges x
  closed : ∀ x < n, uf.parent x < n

theorem forest_new (n : Nat) : Forest n .new := ⟨fun _ => rfl, fun _ h => h⟩

theorem Forest.parent_find {n : Nat} {uf : UnionFind} (h : Forest n uf) (x : Nat) :
    uf.parent (uf.find x) = uf.find x := parent_findLoop (h.rooted x)

theorem Forest.find_lt {n : Nat} {uf : UnionFind} (h : Forest n uf) {x : Nat} (hx : x < n) : uf.find x < n := by
  have hloop : ∀ count x, x < n → findLoop uf.parent count x < n := by
    intro count
    induction count with
    | zero => exact fun x hx => hx
    | succ count ih =>
      intro x hx
      rw [findLoop]
      split_ifs
      · exact hx
      · exact ih _ (h.closed x hx)
  exact hloop uf.edges x hx

theorem Forest.find_find {n : Nat} {uf : UnionFind} (h : Forest n uf) (x : Nat) : uf.find (uf.find x) = uf.find x := by
  have hroot := h.parent_find x
  rw [UnionFind.find]
  cases uf.edges with
  | zero => rfl
  | succ edges => rw [findLoop, if_pos hroot]

theorem Forest.edge {n : Nat} {uf : UnionFind} (h : Forest n uf) {a b : Nat} (hb : uf.parent b = b) (hbn : b < n) :
    Forest n ⟨Function.update uf.parent a b, uf.edges + 1⟩ where
  rooted x := (h.rooted x).update hb
  closed x hx := by
    change Function.update uf.parent a b x < n
    rw [Function.update_apply]
    split_ifs
    · exact hbn
    · exact h.closed x hx

section AliasFinder

variable {symbols : List Symbol} {sortedList : List Nat}

theorem Forest.join {uf : UnionFind} (h : Forest sortedList.length uf) {i j : Nat} (hi : i < sortedList.length)
    (hj : j < sortedList.length) : Forest sortedList.length (join symbols sortedList uf i j) := by
  rw [Elf.join, setEdge]
  split_ifs
  · exact h.edge (h.parent_find j) (h.find_lt hj)
  · exact h.edge (h.parent_find i) (h.find_lt hi)
  · exact h

theorem Forest.joinFollowing {uf : UnionFind} (h : Forest sortedList.length uf) {i : Nat} {js : List Nat}
    (hi : i < sortedList.length) (hjs : ∀ j ∈ js, j < sortedList.length) :
    Forest sortedList.length (joinFollowing symbols sortedList i uf js) := by
  induction js generalizing uf with
  | nil => exact h
  | cons j js ih =>
    rw [List.forall_mem_cons] at hjs
    rw [Elf.joinFollowing]
    split_ifs
    · exact h
    · exact ih (h.join hi hjs.1) hjs.2
    · exact ih h hjs.2

theorem forest_constructByAddress : Forest sortedList.length (constructByAddress symbols sortedList) := by
  have hloop : ∀ is : List Nat, (∀ i ∈ is, i < sortedList.length) → ∀ uf, Forest sortedList.length uf →
      Forest sortedList.length (is.foldl (fun uf i =>
        if (symbolAt symbols sortedList i).type = .file then uf
        else Elf.joinFollowing symbols sortedList i uf (List.range' (i + 1) (sortedList.length - (i + 1)))) uf) := by
    intro is
    induction is with
    | nil => exact fun _ _ h => h
    | cons i is ih =>
      intro his uf h
      rw [List.forall_mem_cons] at his
      refine ih his.2 _ ?_
      dsimp only
      split_ifs
      · exact h
      · refine h.joinFollowing his.1 fun j hj => ?_
        rw [List.mem_range'_1] at hj
        omega
  exact hloop _ (fun i hi => List.mem_range.1 hi) _ (forest_new _)

/-! ## By address -/

theorem addressAlias_lt {s q : Nat} (h : addressAlias symbols sortedList s = some q) : s < symbols.length := by
  rw [addressAlias] at h
  split_ifs at h with hs
  exact hs.1

section ByAddress

variable (hperm : sortedList.Perm (List.range symbols.length))
include hperm

theorem idxOf_getSymbol {i : Nat} (hi : i < symbols.length) : sortedList.idxOf (getSymbol sortedList i) = i := by
  have hlen : i < sortedList.length := by rw [hperm.length_eq, List.length_range]; exact hi
  have hnodup : sortedList.Nodup := hperm.nodup_iff.2 List.nodup_range
  rw [getSymbol, List.getElem?_eq_getElem hlen, Option.getD_some]
  exact hnodup.idxOf_getElem i hlen

theorem getSymbol_lt {i : Nat} (hi : i < symbols.length) : getSymbol sortedList i < symbols.length := by
  have hlen : i < sortedList.length := by rw [hperm.length_eq, List.length_range]; exact hi
  rw [getSymbol, List.getElem?_eq_getElem hlen, Option.getD_some]
  exact List.mem_range.1 (hperm.mem_iff.1 (List.getElem_mem hlen))

theorem getSymbol_idxOf {s : Nat} (hs : s < symbols.length) : getSymbol sortedList (sortedList.idxOf s) = s := by
  have hmem : s ∈ sortedList := hperm.mem_iff.2 (List.mem_range.2 hs)
  have hlen := List.idxOf_lt_length_of_mem hmem
  rw [getSymbol, List.getElem?_eq_getElem hlen, Option.getD_some, List.getElem_idxOf hlen]

/-- A representative is no alias. -/
theorem addressAlias_target {s q : Nat} (h : addressAlias symbols sortedList s = some q) :
    addressAlias symbols sortedList q = none := by
  have hlen : sortedList.length = symbols.length := by rw [hperm.length_eq, List.length_range]
  have hforest : Forest sortedList.length (constructByAddress symbols sortedList) := forest_constructByAddress
  rw [addressAlias] at h
  split_ifs at h with hs
  cases h
  have hi : sortedList.idxOf s < symbols.length := by
    rw [← hlen]
    exact List.idxOf_lt_length_of_mem (hperm.mem_iff.2 (List.mem_range.2 hs.1))
  have hrep : getRepresentativeIndex symbols sortedList (sortedList.idxOf s) < symbols.length := by
    rw [← hlen]
    exact hforest.find_lt (by rw [hlen]; exact hi)
  rw [addressAlias, if_neg]
  rw [idxOf_getSymbol hperm hrep]
  exact fun h => h.2 (hforest.find_find _)

/-- After the first `k` positions of the sorted list. -/
theorem aliasesByAddress_take {k : Nat} (hk : k ≤ symbols.length) (s q : Nat) :
    let a := (List.range k).foldl (aliasByAddress symbols sortedList) ⟨fun _ => none, fun _ => []⟩
    (a.aliasFor s = some q ↔ sortedList.idxOf s < k ∧ addressAlias symbols sortedList s = some q) ∧
    (s ∈ a.aliasList q ↔ sortedList.idxOf s < k ∧ addressAlias symbols sortedList s = some q) := by
  induction k generalizing s q with
  | zero => simp
  | succ k ih =>
    have hih := fun s q => ih (by omega) s q
    have hidx := idxOf_getSymbol hperm (by omega : k < symbols.length)
    have hsym := getSymbol_lt hperm (by omega : k < symbols.length)
    -- only the symbol at this position is new
    have hnew : ∀ s q, sortedList.idxOf s < k + 1 ∧ addressAlias symbols sortedList s = some q ↔
        (sortedList.idxOf s < k ∧ addressAlias symbols sortedList s = some q) ∨
        (s = getSymbol sortedList k ∧ addressAlias symbols sortedList s = some q) := by
      intro s q
      constructor
      · rintro ⟨hlt, hs⟩
        rcases Nat.lt_succ_iff_lt_or_eq.1 hlt with hlt | rfl
        · exact .inl ⟨hlt, hs⟩
        · exact .inr ⟨(getSymbol_idxOf hperm (addressAlias_lt hs)).symm, hs⟩
      · rintro (⟨hlt, hs⟩ | ⟨rfl, hs⟩)
        · exact ⟨by omega, hs⟩
        · exact ⟨by rw [hidx]; omega, hs⟩
    have haddr : addressAlias symbols sortedList (getSymbol sortedList k) =
        if getRepresentativeIndex symbols sortedList k ≠ k then
          some (getSymbol sortedList (getRepresentativeIndex symbols sortedList k)) else none := by
      rw [addressAlias, hidx]
      simp [hsym]
    rw [List.range_succ, List.foldl_append, List.foldl_cons, List.foldl_nil]
    dsimp only at hih ⊢
    generalize (List.range k).foldl (aliasByAddress symbols sortedList) ⟨fun _ => none, fun _ => []⟩ = a at hih ⊢
    rw [hnew, aliasByAddress]
    dsimp only
    split_ifs at haddr ⊢ with hrep
    · constructor
      · change Function.update a.aliasFor (getSymbol sortedList k) _ s = some q ↔ _
        by_cases hs : s = getSymbol sortedList k
        · subst hs
          rw [Function.update_self, hidx, haddr]
          simp
        · rw [Function.update_of_ne hs, (hih s q).1]
          simp [hs]
      · change s ∈ Function.update a.aliasList _ _ q ↔ _
        by_cases hq : q = getSymbol sortedList (getRepresentativeIndex symbols sortedList k)
        · subst hq
          rw [Function.update_self, List.mem_append, List.mem_singleton]
          refine or_congr (hih s _).2 ⟨?_, fun h => h.1⟩
          rintro rfl
          exact ⟨rfl, haddr⟩
        · rw [Function.update_of_ne hq, (hih s q).2]
          refine ⟨.inl, fun h => h.resolve_right ?_⟩
          rintro ⟨rfl, h⟩
          rw [haddr] at h
          exact hq (Option.some.inj h).symm
    · have hold : ¬ (s = getSymbol sortedList k ∧ addressAlias symbols sortedList s = some q) := by
        rintro ⟨rfl, h⟩
        rw [haddr] at h
        cases h
      simp only [hold, or_false]
      exact hih s q

theorem aliasesByAddress_spec (s q : Nat) :
    ((aliasesByAddress symbols sortedList).aliasFor s = some q ↔ addressAlias symbols sortedList s = some q) ∧
    (s ∈ (aliasesByAddress symbols sortedList).aliasList q ↔ addressAlias symbols sortedList s = some q) := by
  have hlt : addressAlias symbols sortedList s = some q → sortedList.idxOf s < symbols.length := by
    intro h
    have := List.idxOf_lt_length_of_mem (hperm.mem_iff.2 (List.mem_range.2 (addressAlias_lt h)))
    rwa [hperm.length_eq, List.length_range] at this
  obtain ⟨hfor, hlist⟩ := aliasesByAddress_take hperm (Nat.le_refl symbols.length) s q
  rw [aliasesByAddress, hfor, hlist]
  exact ⟨and_iff_right_of_imp hlt, and_iff_right_of_imp hlt⟩

end ByAddress

end AliasFinder

/-! ## By name -/

section ByName

variable {symbols : List Symbol}

theorem firstNamed_spec {s p : Nat} (h : firstNamed symbols s = some p) : p < s ∧ firstNamed symbols p = none := by
  rw [firstNamed] at h
  split_ifs at h with hs
  rw [List.find?_range_eq_some, List.mem_range, Bool.and_eq_true, decide_eq_true_eq] at h
  obtain ⟨⟨hnamed, hname⟩, hlt, hfirst⟩ := h
  refine ⟨hlt, ?_⟩
  rw [firstNamed, if_pos hnamed, List.find?_range_eq_none, hname]
  exact hfirst

variable (symbols) in
/-- After the first `k` symbols, from the aliases of the first pass. -/
theorem aliasByName_take (a : Aliases) (k : Nat) :
    let st := (List.range k).foldl (aliasByName symbols) ⟨fun _ => none, a⟩
    (∀ name, st.seenNamed name = (List.range k).find? fun prev =>
      isNamed (symbols[prev]?.getD default) && (symbols[prev]?.getD default).name = name) ∧
    (∀ s, st.aliases.aliasFor s = (a.aliasFor s).or (if s < k then firstNamed symbols s else none)) ∧
    ∀ s q, s ∈ st.aliases.aliasList q ↔ s ∈ a.aliasList q ∨ (s < k ∧ firstNamed symbols s = some q) := by
  induction k with
  | zero => simp
  | succ k ih =>
    obtain ⟨hseen, hfor, hlist⟩ := ih
    have hlt : ∀ s, s < k + 1 ↔ s < k ∨ s = k := fun s => Nat.lt_succ_iff_lt_or_eq
    have hfind : ∀ p : Nat → Bool, (List.range (k + 1)).find? p =
        ((List.range k).find? p).or (if p k then some k else none) := by
      intro p
      rw [List.range_succ, List.find?_append, List.find?_singleton]
    have hfirst : firstNamed symbols k = if isNamed (symbols[k]?.getD default) then
        ((List.range k).foldl (aliasByName symbols) ⟨fun _ => none, a⟩).seenNamed (symbols[k]?.getD default).name
        else none := by rw [firstNamed, hseen]
    -- a symbol before `k` is as it was, `k` itself has its own first symbol
    have hif : ∀ s, (if s < k + 1 then firstNamed symbols s else none) =
        if s = k then firstNamed symbols k else if s < k then firstNamed symbols s else none := by
      intro s
      by_cases hs : s = k
      · simp [hs]
      · simp [hlt, hs]
    have hrange := List.range_succ (n := k)
    simp only [hrange, List.foldl_append, List.foldl_cons, List.foldl_nil]
    simp only [← hrange, hfind, hif]
    generalize (List.range k).foldl (aliasByName symbols) ⟨fun _ => none, a⟩ = st at hseen hfor hlist hfirst ⊢
    rw [aliasByName]
    cases hnamed : isNamed (symbols[k]?.getD default) with
    | false =>
      rw [hnamed, if_neg Bool.false_ne_true] at hfirst
      simp only [Bool.false_eq_true, if_false, hfirst, Bool.false_and, Option.or_none]
      refine ⟨hseen, fun s => ?_, fun s q => ?_⟩
      · rw [hfor]
        by_cases hs : s = k <;> simp [hs]
      · rw [hlist, hlt]
        by_cases hs : s = k <;> simp [hs, hfirst]
    | true =>
      rw [hnamed, if_pos rfl] at hfirst
      simp only [if_true, Bool.true_and, decide_eq_true_eq]
      cases hprev : st.seenNamed (symbols[k]?.getD default).name with
      | none =>
        rw [hprev] at hfirst
        refine ⟨fun name => ?_, fun s => ?_, fun s q => ?_⟩
        · change Function.update st.seenNamed _ _ name = _
          rw [Function.update_apply, ← hseen]
          by_cases hname : name = (symbols[k]?.getD default).name
          · subst hname
            simp [hprev]
          · simp [hname, Ne.symm hname]
        · rw [hfor]
          by_cases hs : s = k <;> simp [hs, hfirst]
        · rw [hlist, hlt]
          by_cases hs : s = k <;> simp [hs, hfirst]
      | some prev =>
        rw [hprev] at hfirst
        refine ⟨fun name => ?_, fun s => ?_, fun s q => ?_⟩
        · rw [← hseen]
          by_cases hname : name = (symbols[k]?.getD default).name
          · subst hname
            simp [hprev]
          · simp [Ne.symm hname]
        · have hk := hfor k
          rw [if_neg (Nat.lt_irrefl k), Option.or_none] at hk
          by_cases hs : s = k
          · subst hs
            rw [if_pos rfl, hfirst, hk]
            cases ha : a.aliasFor s with
            | none => simp [Aliases.addAlias, Aliases.setAliasFor]
            | some q => simp [Aliases.addAlias, hk, ha]
          · rw [if_neg hs, ← hfor s]
            split_ifs <;> simp [Aliases.addAlias, Aliases.setAliasFor, hs]
        · have hsame : ∀ b : Aliases, b.aliasList = st.aliases.aliasList →
              (s ∈ (b.addAlias prev k).aliasList q ↔ s ∈ a.aliasList q ∨ (s < k + 1 ∧ firstNamed symbols s = some q)) := by
            intro b hb
            change s ∈ Function.update b.aliasList prev _ q ↔ _
            rw [Function.update_apply, hb, hlt]
            by_cases hs : s = k
            · subst hs
              rw [hfirst]
              by_cases hq : q = prev
              · simp [hq]
              · simp [hq, hlist, Ne.symm hq]
            · by_cases hq : q = prev
              · simp [hq, hs, hlist]
              · simp [hq, hs, hlist]
          split_ifs
          · exact hsame _ rfl
          · exact hsame _ rfl

end ByName

/-! ## Both passes -/

/-- Chains of one step lead all of a group to the same symbol. -/
theorem existsUnique_representative {a : Aliases} (h : ∀ s q, a.aliasFor s = some q → a.aliasFor q = none) (s : Nat) :
    ∃! q, Relation.EqvGen (fun s q => a.aliasFor s = some q) s q ∧ a.aliasFor q = none := by
  have hrep : ∀ q, a.aliasFor q = none → (a.aliasFor q).getD q = q := fun q hq => by rw [hq, Option.getD_none]
  have hsame : ∀ s t, Relation.EqvGen (fun s q => a.aliasFor s = some q) s t →
      (a.aliasFor s).getD s = (a.aliasFor t).getD t := by
    intro s t hst
    induction hst with
    | rel s q hq => rw [hrep q (h s q hq), hq, Option.getD_some]
    | refl s => rfl
    | symm s t _ ih => exact ih.symm
    | trans s t u _ _ ih₁ ih₂ => exact ih₁.trans ih₂
  refine ⟨(a.aliasFor s).getD s, ?_, fun q ⟨hsq, hq⟩ => by rw [hsame s q hsq, hrep q hq]⟩
  cases hs : a.aliasFor s with
  | none => exact ⟨.refl s, hs⟩
  | some q => exact ⟨.rel s q hs, h s q hs⟩

/-- Aliases that come from two relations, the first of which goes before. -/
theorem canonical_iff {a : Aliases} (byAddress byName : Nat → Option Nat)
    (hfor : ∀ s, a.aliasFor s = (byAddress s).or (byName s))
    (hlist : ∀ s q, s ∈ a.aliasList q ↔ byAddress s = some q ∨ byName s = some q)
    (haddress : ∀ s q, byAddress s = some q → byAddress q = none)
    (hname : ∀ s q, byName s = some q → byName q = none) :
    Canonical a ↔ ∀ s p, byName s = some p →
      (byAddress s ≠ none ∧ (byAddress p ≠ none ∨ byAddress s = some p)) ∨
      (byAddress s = none ∧ byAddress p = none ∧ ∀ t, byAddress t ≠ some s) := by
  constructor
  · intro h s p hp
    have hnone : a.aliasFor p = byAddress p := by rw [hfor, hname s p hp, Option.or_none]
    cases hs : byAddress s with
    | some q =>
      refine .inl ⟨Option.some_ne_none q, ?_⟩
      by_cases hpa : byAddress p = none
      · right
        -- `p` is a representative, with `s` in its list
        have hmem := (h.list p (hnone.trans hpa) s).1 ((hlist s p).2 (.inr hp))
        rwa [hfor, hs, Option.some_or] at hmem
      · exact .inl hpa
    | none =>
      have hsp : a.aliasFor s = some p := by rw [hfor, hs, Option.none_or, hp]
      refine .inr ⟨rfl, hnone ▸ h.direct s p hsp, fun t ht => ?_⟩
      have hts := h.direct t s (by rw [hfor, ht, Option.some_or])
      rw [hsp] at hts
      cases hts
  · intro h
    have hdirect : ∀ s q, a.aliasFor s = some q → a.aliasFor q = none := by
      intro s q hq
      rw [hfor, Option.or_eq_some_iff] at hq
      rw [hfor, Option.or_eq_none_iff]
      rcases hq with hq | ⟨hs, hq⟩
      · refine ⟨haddress s q hq, ?_⟩
        cases hp : byName q with
        | none => rfl
        | some p =>
          rcases h q p hp with ⟨hne, -⟩ | ⟨-, -, hall⟩
          · exact absurd (haddress s q hq) hne
          · exact absurd hq (hall s)
      · refine ⟨?_, hname s q hq⟩
        rcases h s q hq with ⟨hne, -⟩ | ⟨-, hn, -⟩
        · exact absurd hs hne
        · exact hn
    refine ⟨hdirect, existsUnique_representative hdirect, fun q hq s => ?_⟩
    rw [hlist, hfor, Option.or_eq_some_iff]
    rw [hfor, Option.or_eq_none_iff] at hq
    constructor
    · rintro (hs | hs)
      · exact .inl hs
      · rcases h s q hs with ⟨-, hne | heq⟩ | ⟨hn, -, -⟩
        · exact absurd hq.1 hne
        · exact .inl heq
        · exact .inr ⟨hn, hs⟩
    · rintro (hs | ⟨-, hs⟩)
      · exact .inl hs
      · exact .inr hs

/-- The aliases of a symbol table are canonical if and only if its names fit its address groups,
whatever the order in which equal addresses are sorted. -/
theorem aliases_canonical_iff (symbols : List Symbol) (sortedList : List Nat)
    (hperm : sortedList.Perm (List.range symbols.length)) :
    Canonical (buildAliases symbols sortedList) ↔ NamesFit symbols sortedList := by
  obtain ⟨-, hfor, hlist⟩ := aliasByName_take symbols (aliasesByAddress symbols sortedList) symbols.length
  have haddress : ∀ s, (aliasesByAddress symbols sortedList).aliasFor s = addressAlias symbols sortedList s := by
    intro s
    exact Option.ext fun q => (aliasesByAddress_spec hperm s q).1
  have hiff := canonical_iff (a := buildAliases symbols sortedList) (addressAlias symbols sortedList)
    (fun s => if s < symbols.length then firstNamed symbols s else none)
    (fun s => by rw [← haddress s]; exact hfor s)
    (fun s q => by
      rw [← (aliasesByAddress_spec hperm s q).2]
      refine (hlist s q).trans (or_congr_right ?_)
      split_ifs with hs <;> simp [hs])
    (fun s q h => addressAlias_target hperm h)
    (fun s q h => by
      split_ifs at h ⊢
      · exact (firstNamed_spec h).2
      · rfl)
  rw [hiff, NamesFit]
  constructor
  · intro h s p hs hp
    exact h s p (by rw [if_pos hs]; exact hp)
  · intro h s p hp
    split_ifs at hp with hs
    exact h s p hs hp

/-- A weak `f` and a global `g` at one address, and another global `f`. -/
def chainedSymbols : List Symbol :=
  [⟨0x1000, 8, ['f'], .func, .bindWeak, 1⟩, ⟨0x1000, 8, ['g'], .func, .bindGlobal, 1⟩,
    ⟨0x2000, 8, ['f'], .func, .bindGlobal, 1⟩]

/-- The second `f` is an alias for the first one, which is an alias for `g`. -/
theorem chainedSymbols_not_canonical : (buildAliases chainedSymbols [0, 1, 2]).aliasFor 2 = some 0 ∧
    (buildAliases chainedSymbols [0, 1, 2]).aliasFor 0 = some 1 ∧
    ¬ Canonical (buildAliases chainedSymbols [0, 1, 2]) := by
  have h2 : (buildAliases chainedSymbols [0, 1, 2]).aliasFor 2 = some 0 := by decide +kernel
  have h0 : (buildAliases chainedSymbols [0, 1, 2]).aliasFor 0 = some 1 := by decide +kernel
  refine ⟨h2, h0, fun h => ?_⟩
  have hnone := h.direct 2 0 h2
  rw [h0] at hnone
  cases hnone

/-- A weak `f` and a global `g` at one address, and another `g` elsewhere. -/
def fittingSymbols : List Symbol :=
  [⟨0x1000, 8, ['g'], .func, .bindGlobal, 1⟩, ⟨0x1000, 8, ['f'], .func, .bindWeak, 1⟩,
    ⟨0x2000, 8, ['g'], .func, .bindGlobal, 1⟩]

theorem fittingSymbols_canonical : Canonical (buildAliases fittingSymbols [0, 1, 2]) := by
  refine (aliases_canonical_iff fittingSymbols [0, 1, 2] (List.Perm.refl _)).2 ?_
  intro sym prev hsym hprev
  have hfirst : firstNamed fittingSymbols 0 = none ∧ firstNamed fittingSymbols 1 = none ∧
      firstNamed fittingSymbols 2 = some 0 := by decide +kernel
  have haddr : addressAlias fittingSymbols [0, 1, 2] 0 = none ∧ addressAlias fittingSymbols [0, 1, 2] 1 = some 0 ∧
      addressAlias fittingSymbols [0, 1, 2] 2 = none := by decide +kernel
  obtain rfl | rfl | rfl : sym = 0 ∨ sym = 1 ∨ sym = 2 := by
    change sym < 3 at hsym
    omega
  · rw [hfirst.1] at hprev
    cases hprev
  · rw [hfirst.2.1] at hprev
    cases hprev
  · rw [hfirst.2.2] at hprev
    cases hprev
    refine .inr ⟨haddr.2.2, haddr.1, fun other hother => ?_⟩
    obtain rfl | rfl | rfl : other = 0 ∨ other = 1 ∨ other = 2 := by
      have hlt : other < 3 := addressAlias_lt hother
      omega
    · exact absurd (haddr.1.symm.trans hother) (by decide)
    · exact absurd (haddr.2.1.symm.trans hother) (by decide)
    · exact absurd (haddr.2.2.symm.trans hother) (by decide)

end Egalito.Elf
