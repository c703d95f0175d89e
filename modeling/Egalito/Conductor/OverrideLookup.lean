import Mathlib.Data.Prod.Lex
import Mathlib.Tactic
/-!
# Looking up an override

`OverrideContainerInsert` and `OverrideContainerLookup` of `conductor/parseoverride.h`:
a map of maps of maps, one level for each component of a context. A lookup tries
the branch of the component and then the branch of `nullopt`, at each level but
the last. The keys are of any types; a `std::map` is what its `find` returns, and
`none` is `nullptr`, which is not inserted.
-/

namespace Egalito.OverrideContainer

/-! ## The levels -/

section Levels

variable {κ C V : Type}

/-- A level above the last: the next levels look in the branch for the component, then in that for `nullopt`. -/
def lookupLevel (nextLookup : C → Option V) (container : Option κ → Option C) (key : Option κ) : Option V :=
  match (container key).bind nextLookup with
  | some result => some result
  | none => (container none).bind nextLookup

/-- `container[key]` makes an empty branch where there is none. -/
def insertLevel [DecidableEq κ] (nextInsert : C → C) (empty : C) (container : Option κ → Option C) (key : Option κ) :
    Option κ → Option C :=
  Function.update container key (some (nextInsert ((container key).getD empty)))

end Levels

variable {M F A V : Type}

/-- Module name, function name, and address or offset. -/
abbrev Context (M F A : Type) := Option M × Option F × Option A

abbrev Container (M F A V : Type) := Option M → Option (Option F → Option (Option A → Option V))

def empty : Container M F A V := fun _ => none

def lookup (container : Container M F A V) (context : Context M F A) : Option V :=
  lookupLevel (fun container => lookupLevel (fun container => container context.2.2) container context.2.1)
    container context.1

variable [DecidableEq M] [DecidableEq F] [DecidableEq A]

def insert (container : Container M F A V) (context : Context M F A) (value : V) : Container M F A V :=
  insertLevel (fun container =>
    insertLevel (fun container => Function.update container context.2.2 (some value)) (fun _ => none)
      container context.2.1) (fun _ => none) container context.1

/-- The overrides are inserted one after the other. -/
def insertAll (inserts : List (Context M F A × V)) : Container M F A V :=
  inserts.foldl (fun container x => insert container x.1 x.2) empty

/-! ## What is stored -/

omit [DecidableEq M] [DecidableEq F] [DecidableEq A] in
/-- The value under the full path of a context. -/
def stored (container : Container M F A V) (context : Context M F A) : Option V :=
  ((container context.1).bind (· context.2.1)).bind (· context.2.2)

theorem stored_insert (container : Container M F A V) (c d : Context M F A) (value : V) :
    stored (insert container c value) d = if d = c then some value else stored container d := by
  obtain ⟨m, f, a⟩ := c
  obtain ⟨m', f', a'⟩ := d
  simp only [stored, insert, insertLevel, Prod.mk.injEq]
  by_cases hm : m' = m
  · subst hm
    rw [Function.update_self, Option.bind_some]
    by_cases hf : f' = f
    · subst hf
      rw [Function.update_self, Option.bind_some]
      by_cases ha : a' = a
      · rw [ha, Function.update_self, if_pos ⟨rfl, rfl, rfl⟩]
      · rw [Function.update_of_ne ha, if_neg (by simp [ha])]
        cases container m' with
        | none => rfl
        | some branch =>
          dsimp only [Option.getD_some, Option.bind_some]
          cases branch f' <;> rfl
    · rw [Function.update_of_ne hf, if_neg (by simp [hf])]
      cases container m' <;> rfl
  · rw [Function.update_of_ne hm, if_neg (by simp [hm])]

/-- The latest value that was inserted for the context. -/
def latest (inserts : List (Context M F A × V)) (c : Context M F A) : Option V :=
  (inserts.reverse.find? fun x => x.1 = c).map Prod.snd

theorem stored_insertAll (inserts : List (Context M F A × V)) (c : Context M F A) :
    stored (insertAll inserts) c = latest inserts c := by
  induction inserts using List.reverseRecOn with
  | nil => rfl
  | append_singleton inserts x ih =>
    rw [insertAll, List.foldl_append, List.foldl_cons, List.foldl_nil, stored_insert, latest, List.reverse_append,
      List.reverse_singleton, List.singleton_append]
    by_cases hx : c = x.1
    · rw [if_pos hx, List.find?_cons_of_pos (by simp [hx])]
      rfl
    · rw [if_neg hx, List.find?_cons_of_neg (by simpa using Ne.symm hx)]
      exact ih

theorem latest_eq_some {inserts : List (Context M F A × V)} {c : Context M F A} {value : V}
    (h : latest inserts c = some value) :
    ∃ front back, inserts = front ++ (c, value) :: back ∧ ∀ x ∈ back, x.1 ≠ c := by
  obtain ⟨x, hfind, rfl⟩ := Option.map_eq_some_iff.1 h
  obtain ⟨hx, back, front, hsplit, hback⟩ := List.find?_eq_some_iff_append.1 hfind
  have hc : x.1 = c := by simpa using hx
  subst hc
  refine ⟨front.reverse, back.reverse, ?_, fun y hy => by simpa using hback y (List.mem_reverse.1 hy)⟩
  rw [← List.reverse_reverse inserts, hsplit, List.reverse_append, List.reverse_cons, List.append_assoc,
    List.singleton_append]

theorem latest_isSome {inserts : List (Context M F A × V)} {c : Context M F A} :
    (latest inserts c).isSome ↔ ∃ x ∈ inserts, x.1 = c := by
  simp [latest]

/-! ## The order of the lookup -/

/-- An unset module or function of the stored context agrees with any; the addresses are equal. -/
def Agrees (stored query : Context M F A) : Prop :=
  (stored.1 = none ∨ stored.1 = query.1) ∧ (stored.2.1 = none ∨ stored.2.1 = query.2.1) ∧ stored.2.2 = query.2.2

/-- A context with a module is more specific than one without, then one with a function. -/
def specificity (c : Context M F A) : Bool ×ₗ Bool := toLex (c.1.isSome, c.2.1.isSome)

/-- The contexts that agree with a query, the most specific first. -/
def candidates : Context M F A → List (Context M F A)
  | (some m, some f, a) => [(some m, some f, a), (some m, none, a), (none, some f, a), (none, none, a)]
  | (some m, none, a) => [(some m, none, a), (none, none, a)]
  | (none, some f, a) => [(none, some f, a), (none, none, a)]
  | (none, none, a) => [(none, none, a)]

omit [DecidableEq M] [DecidableEq F] [DecidableEq A] in
theorem mem_candidates {query c : Context M F A} : c ∈ candidates query ↔ Agrees c query := by
  obtain ⟨m, f, a⟩ := query
  obtain ⟨m', f', a'⟩ := c
  cases m <;> cases f <;> cases m' <;> cases f' <;> simp [candidates, Agrees, eq_comm]

omit [DecidableEq M] [DecidableEq F] [DecidableEq A] in
theorem candidates_ordered (query : Context M F A) :
    (candidates query).Pairwise fun c d => specificity d ≤ specificity c := by
  obtain ⟨m, f, a⟩ := query
  cases m <;> cases f <;> simp [candidates, specificity, Prod.Lex.toLex_le_toLex]

theorem lookupLevel_eq {κ C : Type} (next : C → Option V) (container : Option κ → Option C) (key : Option κ) :
    lookupLevel next container key = ((container key).bind next).or ((container none).bind next) := by
  unfold lookupLevel
  cases (container key).bind next <;> rfl

theorem bind_or {C : Type} (x : Option C) (f g : C → Option V) :
    (x.bind fun c => (f c).or (g c)) = (x.bind f).or (x.bind g) := by
  cases x <;> rfl

omit [DecidableEq M] [DecidableEq F] [DecidableEq A] in
/-- The lookup goes through the candidates in their order. -/
theorem lookup_eq (container : Container M F A V) (query : Context M F A) :
    lookup container query = (candidates query).findSome? (stored container) := by
  obtain ⟨m, f, a⟩ := query
  have hpath : ∀ m : Option M, (container m).bind (fun branch =>
      ((branch f).bind fun leaves => leaves a).or ((branch none).bind fun leaves => leaves a)) =
        (stored container (m, f, a)).or (stored container (m, none, a)) := by
    intro m
    rw [bind_or, stored, stored, Option.bind_assoc, Option.bind_assoc]
  have hcons : ∀ (c : Context M F A) cs, (c :: cs).findSome? (stored container) =
      (stored container c).or (cs.findSome? (stored container)) := by
    intro c cs
    rw [List.findSome?_cons]
    cases stored container c <;> rfl
  rw [lookup]
  simp only [lookupLevel_eq, hpath]
  cases m <;> cases f <;>
    simp only [candidates, hcons, List.findSome?_nil, Option.or_none, Option.or_self, Option.or_assoc]

/-- A lookup finds a value exactly when an inserted context agrees with the query, and then the latest value of the most
specific of these contexts. -/
theorem lookup_most_specific (inserts : List (Context M F A × V)) (query : Context M F A) :
    ((lookup (insertAll inserts) query).isSome ↔ ∃ x ∈ inserts, Agrees x.1 query) ∧
    ∀ value, lookup (insertAll inserts) query = some value → ∃ c front back,
      inserts = front ++ (c, value) :: back ∧ (∀ x ∈ back, x.1 ≠ c) ∧ Agrees c query ∧
        ∀ x ∈ inserts, Agrees x.1 query → specificity x.1 ≤ specificity c := by
  have hstored : stored (insertAll inserts) = latest inserts := funext (stored_insertAll inserts)
  rw [lookup_eq, hstored]
  refine ⟨?_, fun value hvalue => ?_⟩
  · rw [List.findSome?_isSome_iff]
    constructor
    · rintro ⟨c, hc, hsome⟩
      obtain ⟨x, hx, rfl⟩ := latest_isSome.1 hsome
      exact ⟨x, hx, mem_candidates.1 hc⟩
    · rintro ⟨x, hx, hagrees⟩
      exact ⟨x.1, mem_candidates.2 hagrees, latest_isSome.2 ⟨x, hx, rfl⟩⟩
  · obtain ⟨before, c, after, hsplit, hc, hbefore⟩ := List.findSome?_eq_some_iff.1 hvalue
    obtain ⟨front, back, hinserts, hback⟩ := latest_eq_some hc
    have hmem : c ∈ candidates query := hsplit ▸ List.mem_append_right _ List.mem_cons_self
    refine ⟨c, front, back, hinserts, hback, mem_candidates.1 hmem, fun x hx hagrees => ?_⟩
    -- a context that comes before has no value
    have hx' : x.1 ∈ c :: after := by
      have hx' := mem_candidates.2 hagrees
      rw [hsplit, List.mem_append] at hx'
      refine hx'.resolve_left fun hmem => ?_
      have hsome := latest_isSome.2 ⟨x, hx, rfl⟩
      rw [hbefore x.1 hmem] at hsome
      cases hsome
    have hordered := candidates_ordered query
    rw [hsplit] at hordered
    rcases List.mem_cons.1 hx' with heq | hx'
    · rw [heq]
    · exact (List.pairwise_cons.1 (List.pairwise_append.1 hordered).2.1).1 x.1 hx'

end Egalito.OverrideContainer
