import Mathlib.Data.List.Perm.Basic
import Mathlib.Tactic
/-!
# The origins of memory locations

`MemOriginList` of `analysis/usedef.cpp`. The vector is scanned from its end, and an
entry is taken out by moving the last one into its place; the iterator of the scan
keeps its position when the vector gets shorter.
-/

namespace Egalito.Analysis.MemOrigins

/-! ## Taking out while scanning backwards -/

section Scan

variable {α : Type}

/-- `*it = list.back(); list.pop_back();` -/
def moveBack (l : List α) (it : Nat) : List α :=
  match l.getLast? with
  | some back => (l.set it back).dropLast
  | none => l

theorem moveBack_append (front back : List α) (x : α) :
    ∃ rest, moveBack (front ++ x :: back) front.length = front ++ rest ∧ rest.Perm back := by
  induction back using List.reverseRecOn with
  | nil =>
    refine ⟨[], ?_, List.Perm.nil⟩
    simp [moveBack]
  | append_singleton back last _ =>
    refine ⟨last :: back, ?_, (List.perm_append_singleton last back).symm⟩
    rw [moveBack, ← List.cons_append, ← List.append_assoc, List.getLast?_concat]
    dsimp only
    rw [List.set_append_left _ _ (by simp), List.dropLast_concat]
    simp

end Scan

/-! ## The list -/

variable {Place Origin : Type}

@[ext] structure MemOrigin (Place Origin : Type) where
  place : Place
  origin : Origin

abbrev MemOriginList (Place Origin : Type) := List (MemOrigin Place Origin)

section Operations

-- `m1 == m2` on the memory locations of two places
variable (same : Place → Place → Bool)

/-- The rest of the loop of `set`, with the positions below `it` still to be looked at. -/
def setLoop (place : Place) (origin : Origin) :
    Nat → Bool → MemOriginList Place Origin → Bool × MemOriginList Place Origin
  | 0, found, list => (found, list)
  | it + 1, found, list =>
    match list[it]? with
    | none => (found, list)
    | some m =>
      if same place m.place then
        if found then setLoop place origin it found (moveBack list it)
        else setLoop place origin it true (list.set it ⟨place, origin⟩)
      else setLoop place origin it found list

def set (list : MemOriginList Place Origin) (place : Place) (origin : Origin) : MemOriginList Place Origin :=
  match setLoop same place origin list.length false list with
  | (true, list) => list
  | (false, list) => list ++ [⟨place, origin⟩]

def delLoop (place : Place) : Nat → MemOriginList Place Origin → MemOriginList Place Origin
  | 0, list => list
  | it + 1, list =>
    match list[it]? with
    | none => list
    | some m => if same place m.place then delLoop place it (moveBack list it) else delLoop place it list

def del (list : MemOriginList Place Origin) (place : Place) : MemOriginList Place Origin :=
  delLoop same place list.length list

variable [DecidableEq Origin]

def add (list : MemOriginList Place Origin) (place : Place) (origin : Origin) : MemOriginList Place Origin :=
  if list.any fun mem => mem.origin = origin && same place mem.place then list else list ++ [⟨place, origin⟩]

def addList (list other : MemOriginList Place Origin) : MemOriginList Place Origin :=
  other.foldl (fun list m => add same list m.place m.origin) list

end Operations

/-! ## What the operations leave, in any order -/

section Spec

variable (same : Place → Place → Bool) (place : Place) (origin : Origin)

/-- The entries of other locations. -/
def others (list : MemOriginList Place Origin) :
    MemOriginList Place Origin := list.filter fun m => !same place m.place

theorem others_concat (front : MemOriginList Place Origin) (m : MemOrigin Place Origin) :
    others same place (front ++ [m]) = others same place front ++ if same place m.place then [] else [m] := by
  rw [others, List.filter_append]
  cases hm : same place m.place <;> simp [others, hm]

theorem delLoop_perm (front back : MemOriginList Place Origin) :
    (delLoop same place front.length (front ++ back)).Perm (others same place front ++ back) := by
  induction front using List.reverseRecOn generalizing back with
  | nil => exact List.Perm.refl _
  | append_singleton front m ih =>
    rw [List.length_append, List.length_singleton, delLoop, List.append_assoc, List.singleton_append,
      List.getElem?_append_right (Nat.le_refl _), Nat.sub_self, others_concat]
    simp only [List.getElem?_cons_zero]
    cases hm : same place m.place with
    | true =>
      obtain ⟨rest, hmove, hrest⟩ := moveBack_append front back m
      rw [if_pos rfl, if_pos rfl, hmove, List.append_nil]
      exact (ih rest).trans (hrest.append_left _)
    | false =>
      rw [if_neg Bool.false_ne_true, if_neg Bool.false_ne_true, List.append_assoc]
      exact ih (m :: back)

theorem setLoop_found (front back : MemOriginList Place Origin) :
    (setLoop same place origin front.length true (front ++ back)).1 = true ∧
      (setLoop same place origin front.length true (front ++ back)).2.Perm (others same place front ++ back) := by
  induction front using List.reverseRecOn generalizing back with
  | nil => exact ⟨rfl, List.Perm.refl _⟩
  | append_singleton front m ih =>
    rw [List.length_append, List.length_singleton, setLoop, List.append_assoc, List.singleton_append,
      List.getElem?_append_right (Nat.le_refl _), Nat.sub_self, others_concat]
    simp only [List.getElem?_cons_zero, if_true]
    cases hm : same place m.place with
    | true =>
      obtain ⟨rest, hmove, hrest⟩ := moveBack_append front back m
      rw [if_pos rfl, if_pos rfl, hmove, List.append_nil]
      exact ⟨(ih rest).1, (ih rest).2.trans (hrest.append_left _)⟩
    | false =>
      rw [if_neg Bool.false_ne_true, if_neg Bool.false_ne_true, List.append_assoc]
      exact ih (m :: back)

/-- The slot that is found first is the one that stays. -/
theorem setLoop_perm (front back : MemOriginList Place Origin) :
    (setLoop same place origin front.length false (front ++ back)).1 = front.any (same place ·.place) ∧
      (setLoop same place origin front.length false (front ++ back)).2.Perm
        (if front.any (same place ·.place) then others same place front ++ ⟨place, origin⟩ :: back
          else front ++ back) := by
  induction front using List.reverseRecOn generalizing back with
  | nil => exact ⟨rfl, List.Perm.refl _⟩
  | append_singleton front m ih =>
    rw [List.length_append, List.length_singleton, setLoop, List.append_assoc, List.singleton_append,
      List.getElem?_append_right (Nat.le_refl _), Nat.sub_self, others_concat, List.any_append]
    simp only [List.getElem?_cons_zero, List.any_cons, List.any_nil, Bool.or_false]
    by_cases hm : same place m.place
    · have hset : (front ++ m :: back).set front.length ⟨place, origin⟩ = front ++ ⟨place, origin⟩ :: back := by
        simp
      have hfound := setLoop_found same place origin front (⟨place, origin⟩ :: back)
      simp only [hm, if_true, Bool.false_eq_true, if_false, hset, Bool.or_true, List.append_nil]
      exact hfound
    · simp only [hm, Bool.false_eq_true, if_false, Bool.or_false]
      refine ⟨(ih (m :: back)).1, (ih (m :: back)).2.trans ?_⟩
      split_ifs
      · rw [List.append_assoc]
        exact (List.Perm.swap _ _ _).append_left _
      · exact List.Perm.refl _

theorem others_eq_self {list : MemOriginList Place Origin} (h : list.any (same place ·.place) = false) :
    others same place list = list := by
  rw [List.any_eq_false] at h
  refine List.filter_eq_self.2 fun m hm => ?_
  rw [Bool.not_eq_true']
  exact Bool.eq_false_iff.2 (h m hm)

theorem set_perm (list : MemOriginList Place Origin) :
    (set same list place origin).Perm (⟨place, origin⟩ :: others same place list) := by
  obtain ⟨hfound, hperm⟩ := setLoop_perm same place origin list []
  rw [List.append_nil] at hfound hperm
  rw [set]
  generalize setLoop same place origin list.length false list = out at hfound hperm
  obtain ⟨found, out⟩ := out
  dsimp only at hfound hperm
  subst hfound
  cases hany : list.any (same place ·.place) with
  | true =>
    rw [hany, if_pos rfl] at hperm
    exact hperm.trans (List.perm_append_singleton _ _)
  | false =>
    rw [hany, if_neg Bool.false_ne_true] at hperm
    rw [others_eq_self same place hany]
    exact (hperm.append_right _).trans (List.perm_append_singleton _ _)

theorem del_perm (list : MemOriginList Place Origin) : (del same list place).Perm (others same place list) := by
  have hloop := delLoop_perm same place list []
  rwa [List.append_nil, List.append_nil] at hloop

end Spec

/-! ## The list as a map from locations to sets of origins -/

section Map

variable [DecidableEq Origin] (same : Place → Place → Bool)

inductive Op (Place Origin : Type)
  | set (place : Place) (origin : Origin)
  | add (place : Place) (origin : Origin)
  | addList (other : MemOriginList Place Origin)
  | del (place : Place)

def Op.apply (list : MemOriginList Place Origin) : Op Place Origin → MemOriginList Place Origin
  | .set place origin => MemOrigins.set same list place origin
  | .add place origin => MemOrigins.add same list place origin
  | .addList other => MemOrigins.addList same list other
  | .del place => MemOrigins.del same list place

/-- The entries of a location. -/
def entriesOf (list : MemOriginList Place Origin) (q : Place) : MemOriginList Place Origin :=
  list.filter fun m => same q m.place

/-- The origins that the list has for a location. -/
def origins (list : MemOriginList Place Origin) (q : Place) : Set Origin :=
  { o | ∃ m ∈ list, same q m.place ∧ m.origin = o }

/-- What an operation should do to a map from locations to sets of origins. -/
def Op.onMap (map : Place → Set Origin) (op : Op Place Origin) (q : Place) : Set Origin :=
  match op with
  | .set place origin => if same place q then {origin} else map q
  | .add place origin => if same place q then map q ∪ {origin} else map q
  | .addList other => map q ∪ origins same other q
  | .del place => if same place q then ∅ else map q

/-- The operation is about this location. -/
def Op.Touches (q : Place) : Op Place Origin → Prop
  | .set place _ => same place q
  | .add place _ => same place q
  | .addList other => ∃ m ∈ other, same m.place q
  | .del place => same place q

/-- No two entries are equal in location and origin. -/
def Distinct (list : MemOriginList Place Origin) : Prop :=
  list.Pairwise fun m n => ¬ (same m.place n.place ∧ m.origin = n.origin)

/-- A list that is as a map with these origins, and what the next operation does to it. -/
structure ActsAsMap (list : MemOriginList Place Origin) (map : Place → Set Origin) : Prop where
  origins : origins same list = map
  distinct : Distinct same list
  set : ∀ place origin, ∃ m, entriesOf same (set same list place origin) place = [m] ∧ m.origin = origin
  del : ∀ place, entriesOf same (del same list place) place = []
  others : ∀ (op : Op Place Origin) q, ¬ op.Touches same q →
    (entriesOf same (op.apply same list) q).Perm (entriesOf same list q)

/-! ## One operation -/

variable {same} (hequiv : Equivalence fun p q => same p q = true)

include hequiv

theorem same_comm (p q : Place) : same p q = same q p := Bool.eq_iff_iff.2 ⟨hequiv.symm, hequiv.symm⟩

theorem same_congr {p q : Place} (h : same p q) (r : Place) : same p r = same q r :=
  Bool.eq_iff_iff.2 ⟨hequiv.trans (hequiv.symm h), hequiv.trans h⟩

omit [DecidableEq Origin] in
theorem entriesOf_others (list : MemOriginList Place Origin) (place q : Place) :
    entriesOf same (others same place list) q = if same place q then [] else entriesOf same list q := by
  rw [entriesOf, others, List.filter_filter]
  split_ifs with h
  · refine List.filter_eq_nil_iff.2 fun m _ hm => ?_
    rw [same_congr hequiv h, Bool.and_not_self] at hm
    exact Bool.false_ne_true hm
  · refine List.filter_congr fun m _ => ?_
    cases hq : same q m.place with
    | false => rfl
    | true =>
      have hplace : same place m.place = false := by
        rw [← Bool.not_eq_true]
        exact fun hp => h (hequiv.trans hp (hequiv.symm hq))
      rw [hplace]
      rfl

omit [DecidableEq Origin] in
theorem entriesOf_cons (m : MemOrigin Place Origin) (list : MemOriginList Place Origin) (q : Place) :
    entriesOf same (m :: list) q = (if same q m.place then [m] else []) ++ entriesOf same list q := by
  cases hm : same q m.place <;> simp [entriesOf, hm]

omit [DecidableEq Origin] hequiv in
/-- The origins are read off the entries of the location, in any order. -/
theorem origins_of_perm {list entries : MemOriginList Place Origin} {q : Place}
    (h : (entriesOf same list q).Perm entries) : origins same list q = { o | ∃ m ∈ entries, m.origin = o } := by
  ext o
  have hmem : ∀ m, (m ∈ list ∧ same q m.place) ↔ m ∈ entries := fun m => by
    rw [← h.mem_iff, entriesOf, List.mem_filter]
  simp only [origins, Set.mem_setOf_eq, ← and_assoc, hmem]

omit [DecidableEq Origin] in
theorem distinct_perm {list list' : MemOriginList Place Origin} (h : list.Perm list') :
    Distinct same list ↔ Distinct same list' := by
  refine h.pairwise_iff fun {m n} hmn heq => hmn ⟨?_, heq.2.symm⟩
  exact hequiv.symm heq.1

omit [DecidableEq Origin] in
theorem entriesOf_set (list : MemOriginList Place Origin) (place q : Place) (origin : Origin) :
    (entriesOf same (set same list place origin) q).Perm
      (if same place q then [⟨place, origin⟩] else entriesOf same list q) := by
  refine ((set_perm same place origin list).filter _).trans ?_
  rw [← entriesOf, entriesOf_cons hequiv, entriesOf_others hequiv, same_comm hequiv q]
  split_ifs
  · rw [List.append_nil]
  · rw [List.nil_append]

omit [DecidableEq Origin] in
theorem entriesOf_del (list : MemOriginList Place Origin) (place q : Place) :
    (entriesOf same (del same list place) q).Perm (if same place q then [] else entriesOf same list q) := by
  refine ((del_perm same place list).filter _).trans ?_
  rw [← entriesOf, entriesOf_others hequiv]

theorem entriesOf_add {place q : Place} (h : ¬ same place q) (list : MemOriginList Place Origin) (origin : Origin) :
    entriesOf same (add same list place origin) q = entriesOf same list q := by
  rw [add]
  split_ifs
  · rfl
  · rw [entriesOf, List.filter_append, ← entriesOf]
    simp [same_comm hequiv q, h]

theorem entriesOf_addList {q : Place} (other list : MemOriginList Place Origin)
    (h : ¬ ∃ m ∈ other, same m.place q) : entriesOf same (addList same list other) q = entriesOf same list q := by
  induction other generalizing list with
  | nil => rfl
  | cons m other ih =>
    rw [addList, List.foldl_cons, ← addList, ih _ fun ⟨n, hn, hsame⟩ => h ⟨n, List.mem_cons_of_mem _ hn, hsame⟩]
    exact entriesOf_add hequiv (fun hsame => h ⟨m, List.mem_cons_self, hsame⟩) list m.origin

theorem origins_add (list : MemOriginList Place Origin) (place q : Place) (origin : Origin) :
    origins same (add same list place origin) q =
      if same place q then origins same list q ∪ {origin} else origins same list q := by
  split_ifs with hq
  · rw [add]
    split_ifs with hany
    · obtain ⟨m, hm, hboth⟩ := List.any_eq_true.1 hany
      simp only [Bool.and_eq_true, decide_eq_true_eq] at hboth
      have hmem : origin ∈ origins same list q := ⟨m, hm, by rw [← same_congr hequiv hq]; exact hboth.2, hboth.1⟩
      rw [Set.union_eq_self_of_subset_right (Set.singleton_subset_iff.2 hmem)]
    · ext o
      simp only [origins, List.mem_append, List.mem_singleton, Set.mem_setOf_eq, Set.mem_union, Set.mem_singleton_iff]
      constructor
      · rintro ⟨m, hm | rfl, hsame, rfl⟩
        · exact Or.inl ⟨m, hm, hsame, rfl⟩
        · exact Or.inr rfl
      · rintro (⟨m, hm, hsame, rfl⟩ | rfl)
        · exact ⟨m, Or.inl hm, hsame, rfl⟩
        · exact ⟨_, Or.inr rfl, hequiv.symm hq, rfl⟩
  · rw [origins_of_perm (List.Perm.refl _), entriesOf_add hequiv hq, ← origins_of_perm (List.Perm.refl _)]

omit [DecidableEq Origin] in
theorem origins_cons (m : MemOrigin Place Origin) (list : MemOriginList Place Origin) (q : Place) :
    origins same (m :: list) q = (if same m.place q then {m.origin} else ∅) ∪ origins same list q := by
  ext o
  simp only [origins, List.mem_cons, Set.mem_setOf_eq, Set.mem_union, exists_eq_or_imp, same_comm hequiv q m.place]
  refine or_congr_left ?_
  split_ifs with h
  · simp [h, eq_comm]
  · simp [h]

theorem origins_addList (other list : MemOriginList Place Origin) (q : Place) :
    origins same (addList same list other) q = origins same list q ∪ origins same other q := by
  induction other generalizing list with
  | nil =>
    have hnone : origins same ([] : MemOriginList Place Origin) q = ∅ := by
      simp [origins]
    rw [hnone, Set.union_empty]
    rfl
  | cons m other ih =>
    rw [addList, List.foldl_cons, ← addList, ih, origins_add hequiv, origins_cons hequiv]
    split_ifs
    · rw [Set.union_assoc]
    · rw [Set.empty_union]

/-- Each operation does to the origins what it should do to the map. -/
theorem origins_apply (list : MemOriginList Place Origin) (op : Op Place Origin) :
    origins same (op.apply same list) = op.onMap same (origins same list) := by
  funext q
  cases op with
  | set place origin =>
    rw [Op.apply, Op.onMap, origins_of_perm (entriesOf_set hequiv list place q origin)]
    split_ifs
    · ext o
      simp [eq_comm]
    · exact (origins_of_perm (List.Perm.refl _)).symm
  | add place origin => exact origins_add hequiv list place q origin
  | addList other => exact origins_addList hequiv other list q
  | del place =>
    rw [Op.apply, Op.onMap, origins_of_perm (entriesOf_del hequiv list place q)]
    split_ifs
    · ext o
      simp
    · exact (origins_of_perm (List.Perm.refl _)).symm

theorem entriesOf_apply {op : Op Place Origin} {q : Place} (h : ¬ op.Touches same q)
    (list : MemOriginList Place Origin) : (entriesOf same (op.apply same list) q).Perm (entriesOf same list q) := by
  cases op with
  | set place origin =>
    have hperm := entriesOf_set hequiv list place q origin
    rw [Op.Touches] at h
    rwa [if_neg h] at hperm
  | add place origin => rw [Op.apply, entriesOf_add hequiv h]
  | addList other => rw [Op.apply, entriesOf_addList hequiv other list h]
  | del place =>
    have hperm := entriesOf_del hequiv list place q
    rw [Op.Touches] at h
    rwa [if_neg h] at hperm

theorem distinct_add {list : MemOriginList Place Origin} (h : Distinct same list) (place : Place) (origin : Origin) :
    Distinct same (add same list place origin) := by
  rw [add]
  split_ifs with hany
  · exact h
  · refine List.pairwise_append.2 ⟨h, List.pairwise_singleton _ _, fun m hm n hn heq => hany ?_⟩
    rw [List.mem_singleton] at hn
    subst hn
    rw [List.any_eq_true]
    exact ⟨m, hm, by simpa using ⟨heq.2, hequiv.symm heq.1⟩⟩

theorem distinct_apply {list : MemOriginList Place Origin} (h : Distinct same list) (op : Op Place Origin) :
    Distinct same (op.apply same list) := by
  have hothers : ∀ place, Distinct same (others same place list) := fun place => h.sublist List.filter_sublist
  cases op with
  | set place origin =>
    refine (distinct_perm hequiv (set_perm same place origin list)).2 (List.pairwise_cons.2 ⟨?_, hothers place⟩)
    intro m hm heq
    have hne := (List.mem_filter.1 hm).2
    rw [Bool.not_eq_true', ← Bool.not_eq_true] at hne
    exact hne heq.1
  | add place origin => exact distinct_add hequiv h place origin
  | addList other =>
    rw [Op.apply]
    clear hothers
    induction other generalizing list with
    | nil => exact h
    | cons m other ih =>
      rw [addList, List.foldl_cons, ← addList]
      exact ih (distinct_add hequiv h m.place m.origin)
  | del place => exact (distinct_perm hequiv (del_perm same place list)).2 (hothers place)

/-! ## Every sequence of operations -/

/-- After any operations on an empty list, it acts as the map that they should make. -/
theorem acts_as_map (ops : List (Op Place Origin)) :
    ActsAsMap same (ops.foldl (Op.apply same) []) (ops.foldl (Op.onMap same) fun _ => ∅) where
  origins := by
    refine (List.foldl_hom (origins same) fun list op => (origins_apply hequiv list op).symm).symm.trans ?_
    congr 1
    funext q
    simp [origins]
  distinct := by
    induction ops using List.reverseRecOn with
    | nil => exact List.Pairwise.nil
    | append_singleton ops op ih =>
      rw [List.foldl_append]
      exact distinct_apply hequiv ih op
  set place origin := by
    have hperm := entriesOf_set hequiv (ops.foldl (Op.apply same) []) place place origin
    rw [if_pos (hequiv.refl place)] at hperm
    exact ⟨_, List.perm_singleton.1 hperm, rfl⟩
  del place := by
    have hperm := entriesOf_del hequiv (ops.foldl (Op.apply same) []) place place
    rw [if_pos (hequiv.refl place)] at hperm
    exact List.perm_nil.1 hperm
  others op q h := entriesOf_apply hequiv h _

end Map

/-- Locations as a register and an offset. -/
def sameOffset (p q : Nat × Int) : Bool := p = q

theorem acts_as_map_offsets :
    ActsAsMap sameOffset
      ([Op.add (31, 8) (1 : Nat), .add (31, 8) 2, .add (29, 8) 2, .set (31, 8) 3, .del (29, 8)].foldl
        (Op.apply sameOffset) [])
      ([Op.add (31, 8) (1 : Nat), .add (31, 8) 2, .add (29, 8) 2, .set (31, 8) 3, .del (29, 8)].foldl
        (Op.onMap sameOffset) fun _ => ∅) := by
  refine acts_as_map ⟨?_, ?_, ?_⟩ _
  · exact fun p => decide_eq_true rfl
  · exact fun h => decide_eq_true (of_decide_eq_true h).symm
  · exact fun h h' => decide_eq_true ((of_decide_eq_true h).trans (of_decide_eq_true h'))

end Egalito.Analysis.MemOrigins
