import Egalito.Analysis.UseDefVisits
/-!
# Where the use-def analysis is exact

The analysis does not iterate: a component of one block is visited once, and a
larger one twice. A definition therefore gets to a use in another block exactly
along the routes whose blocks are visited in their order. Whatever gets there
does reach the use, so only definitions that would need another round are
missed, and those that come back to their own block by a link to itself.
-/

open Relation Egalito.Lib

namespace Egalito.Analysis.UseDef

/-- The nodes in the order in which `analyze` visits them. -/
def visits (order : List (List Nat)) : List Nat := order.flatMap fun o => if o.length > 1 then o ++ o else o

theorem mem_visits {order : List (List Nat)} {n : Nat} (h : n ∈ order.flatten) : n ∈ visits order := by
  obtain ⟨o, ho, hn⟩ := List.mem_flatten.1 h
  refine List.mem_flatMap.2 ⟨o, ho, ?_⟩
  split
  · exact List.mem_append_left _ hn
  · exact hn

namespace Function

open WorkingSet

variable {ρ : Type} [DecidableEq ρ] (f : Function ρ)

theorem analyze_eq (w : WorkingSet ρ) (order : List (List Nat)) :
    f.analyze w order = (visits order).foldl f.analyzeNode w := by
  induction order generalizing w with
  | nil => rfl
  | cons o order ih =>
    unfold analyze visits at ih ⊢
    rw [List.foldl_cons, ih, List.flatMap_cons, List.foldl_append]
    congr 1
    dsimp only
    split
    · rw [List.foldl_append]
      rfl
    · rfl

/-- The working set after some visits. -/
def visited (visits : List Nat) : WorkingSet ρ := visits.foldl f.analyzeNode (.make false)

variable {f} {visits : List Nat} {reg : ρ} {d u : UDState}

theorem visited_concat (n : Nat) : f.visited (visits ++ [n]) = f.analyzeNode (f.visited visits) n := by
  simp [visited]

theorem trackPartial_visited : (f.visited visits).trackPartialUDChains = false :=
  List.foldlRecOn (motive := fun w => w.trackPartialUDChains = false) visits f.analyzeNode rfl
    fun _ h n _ => (analyzeNode_spec h n).1

theorem agrees_visited : (f.visited visits).Agrees :=
  List.foldlRecOn visits f.analyzeNode (fun _ _ _ => by simp [make, RefList.empty])
    fun _ h n _ => agrees_analyzeNode h n

/-! ## Routes of definitions -/

/-- The definition of the register in `d` travels through the exposed sets. -/
theorem propagates (reg : ρ) (d : UDState) :
    Propagates (fun n => f.LastDefinition n (f.block n).length reg d) (fun n => f.Clear n (f.block n).length reg)
      (fun p n => n ∈ f.cfg.links 1 p) (fun visits n => d ∈ (f.visited visits).nodeExposedRegSetList n reg) where
  start n := by simp [visited, make, RefList.empty]
  other visits n m hm := by rw [visited_concat, (analyzeNode_spec trackPartial_visited n).2.1 m hm]
  visit visits n := by rw [visited_concat, (analyzeNode_spec trackPartial_visited n).2.2.1]

/-- The references of an instruction come from the visits of its node. -/
theorem mem_refs_iff_records : d ∈ (f.visited visits).regRefList u reg ↔ u.index < (f.block u.node).length ∧
    ∃ before after, visits = before ++ u.node :: after ∧ f.Records u reg d (∃ p, u.node ∈ f.cfg.links 1 p ∧
      p ≠ u.node ∧ d ∈ (f.visited before).nodeExposedRegSetList p reg) := by
  induction visits using List.reverseRecOn with
  | nil => simp [visited, make, RefList.empty]
  | append_singleton visits n ih =>
    rw [visited_concat, (analyzeNode_spec trackPartial_visited n).2.2.2, ih]
    constructor
    · rintro (⟨hlt, before, after, rfl, h⟩ | ⟨rfl, hlt, h⟩)
      · exact ⟨hlt, before, after ++ [n], by simp, h⟩
      · exact ⟨hlt, visits, [], rfl, h⟩
    · rintro ⟨hlt, before, after, hsplit, h⟩
      rcases List.eq_nil_or_concat' after with rfl | ⟨after, m, rfl⟩
      · obtain ⟨rfl, heq⟩ := List.append_inj' hsplit rfl
        cases heq
        exact Or.inr ⟨rfl, hlt, h⟩
      · rw [← List.cons_append, ← List.append_assoc] at hsplit
        obtain ⟨rfl, -⟩ := List.append_inj' hsplit rfl
        exact Or.inl ⟨hlt, before, after, rfl, h⟩

variable (f) in
/-- A route from block to block, without another definition, whose blocks are visited in this order. -/
structure Follows (visits : List Nat) (reg : ρ) (d u : UDState) (between : List Nat) : Prop where
  leaves : f.LastDefinition d.node (f.block d.node).length reg d
  through : ∀ n ∈ between, f.Clear n (f.block n).length reg
  enters : f.Clear u.node u.index reg
  linked : (d.node :: between ++ [u.node]).IsChain fun p n => n ∈ f.cfg.links 1 p ∧ p ≠ n
  visited : (d.node :: between ++ [u.node]).Sublist visits

variable (f) in
/-- The definition in `d` gets to `u`, inside of one block or along a route. -/
def Arrives (visits : List Nat) (reg : ρ) (d u : UDState) : Prop :=
  f.LastDefinition u.node u.index reg d ∨ ∃ between, f.Follows visits reg d u between

theorem isChain_concat_iff {first p n : Nat} {rest : List Nat} {R : Nat → Nat → Prop}
    (hlast : (first :: rest).getLast? = some p) :
    (first :: rest ++ [n]).IsChain R ↔ (first :: rest).IsChain R ∧ R p n := by
  rw [List.isChain_append]
  simp [hlast]

theorem exists_follows_iff : (∃ between, f.Follows visits reg d u between) ↔ f.Clear u.node u.index reg ∧
    ∃ before after, visits = before ++ u.node :: after ∧
      ∃ p, u.node ∈ f.cfg.links 1 p ∧ p ≠ u.node ∧ d ∈ (f.visited before).nodeExposedRegSetList p reg := by
  rw [(propagates reg d).arrives_iff]
  constructor
  · rintro ⟨between, h⟩
    have hlast : (d.node :: between).getLast? = some ((d.node :: between).getLast (by simp)) :=
      List.getLast?_eq_some_getLast (by simp)
    obtain ⟨hlinked, hlink, hne⟩ := (isChain_concat_iff hlast).1 h.linked
    exact ⟨h.enters, d.node, between, _, ⟨h.leaves, h.through, hlinked⟩, hlast, hlink, hne, h.visited⟩
  · rintro ⟨henters, first, rest, p, hroute, hlast, hlink, hne, hsub⟩
    obtain rfl : d.node = first := hroute.born.here
    exact ⟨rest, hroute.born, hroute.through, henters, (isChain_concat_iff hlast).2 ⟨hroute.linked, hlink, hne⟩, hsub⟩

omit [DecidableEq ρ] in
theorem accesses_lt {a : Access ρ} (h : a ∈ f.accesses u) : u.index < (f.block u.node).length := by
  unfold accesses at h
  split at h
  case h_1 instruction hi => exact (List.getElem?_eq_some_iff.1 hi).1
  case h_2 => cases h

/-- What the lists of references hold in the end. -/
theorem mem_refs_iff : d ∈ (f.visited visits).regRefList u reg ↔ u.node ∈ visits ∧
    (UsedFirst (f.accesses u) reg ∧ f.Arrives visits reg d u ∨ UsedLate (f.accesses u) reg ∧ d = u) := by
  rw [mem_refs_iff_records]
  unfold Records Arrives
  rw [exists_follows_iff]
  constructor
  · rintro ⟨-, before, after, rfl, ⟨hfirst, hlast | ⟨hclear, henters⟩⟩ | hlate⟩
    · exact ⟨by simp, Or.inl ⟨hfirst, Or.inl hlast⟩⟩
    · exact ⟨by simp, Or.inl ⟨hfirst, Or.inr ⟨hclear, before, after, rfl, henters⟩⟩⟩
    · exact ⟨by simp, Or.inr hlate⟩
  · rintro ⟨hmem, h⟩
    have hused : .use reg ∈ f.accesses u := used_iff.2 (h.imp And.left And.left)
    refine ⟨accesses_lt hused, ?_⟩
    obtain ⟨before, after, hsplit⟩ := List.append_of_mem hmem
    rcases h with ⟨hfirst, hlast | ⟨hclear, before', after', hsplit', henters⟩⟩ | hlate
    · exact ⟨before, after, hsplit, Or.inl ⟨hfirst, Or.inl hlast⟩⟩
    · exact ⟨before', after', hsplit', Or.inl ⟨hfirst, Or.inr ⟨hclear, henters⟩⟩⟩
    · exact ⟨before, after, hsplit, Or.inr hlate⟩

/-! ## What arrives reaches -/

omit [DecidableEq ρ] in
theorem flow_block {node a b : Nat} (hab : a ≤ b) (hb : b ≤ (f.block node).length)
    (hclear : ∀ i, a ≤ i → i < b → ¬ f.Defines ⟨node, i⟩ reg) : ReflTransGen (f.Flow reg) (node, a) (node, b) := by
  induction b, hab using Nat.le_induction with
  | base => exact .refl
  | succ b hab ih =>
    refine (ih (by omega) fun i hi hib => hclear i hi (by omega)).tail ?_
    exact .next (by omega) (hclear b hab (Nat.lt_succ_self b))

omit [DecidableEq ρ] in
theorem flow_route {first last : Nat} {between : List Nat} {R : Nat → Nat → Prop}
    (hR : ∀ p n, R p n → n ∈ f.cfg.links 1 p) (hlinked : (first :: between ++ [last]).IsChain R)
    (hthrough : ∀ n ∈ between, f.Clear n (f.block n).length reg) :
    ReflTransGen (f.Flow reg) (first, (f.block first).length) (last, 0) := by
  induction between generalizing first with
  | nil => exact .single (.link (hR _ _ (List.isChain_cons_cons.1 hlinked).1))
  | cons n between ih =>
    obtain ⟨hlink, hrest⟩ := List.isChain_cons_cons.1 hlinked
    have hblock : ReflTransGen (f.Flow reg) (n, 0) (n, (f.block n).length) :=
      flow_block (Nat.zero_le _) le_rfl fun i _ hi => hthrough n List.mem_cons_self i hi
    exact (ReflTransGen.head (.link (hR _ _ hlink)) hblock).trans
      (ih hrest fun m hm => hthrough m (List.mem_cons_of_mem _ hm))

omit [DecidableEq ρ] in
theorem reaches_of_arrives (hu : u.index ≤ (f.block u.node).length) (h : f.Arrives visits reg d u) :
    f.Reaches reg d u := by
  rcases h with h | ⟨between, h⟩
  · refine ⟨h.defines, ?_⟩
    rw [h.here]
    exact flow_block h.lt hu fun i hi hiu => h.last i hi hiu
  · refine ⟨h.leaves.defines, ?_⟩
    have hout : ReflTransGen (f.Flow reg) (d.node, d.index + 1) (d.node, (f.block d.node).length) :=
      flow_block h.leaves.lt le_rfl fun i hi hid => h.leaves.last i hi hid
    have hroute : ReflTransGen (f.Flow reg) (d.node, (f.block d.node).length) (u.node, 0) :=
      flow_route (fun _ _ hlink => hlink.1) h.linked h.through
    have hin : ReflTransGen (f.Flow reg) (u.node, 0) (u.node, u.index) :=
      flow_block (Nat.zero_le _) hu fun i _ hi => h.enters i hi
    exact hout.trans (hroute.trans hin)

/-! ## The analysis on `SccOrder::genFull(0)` -/

variable (f) in
/-- The visits in the order that `genFull(0)` finds. -/
def fullVisits : List Nat := UseDef.visits ((sccOrder f.cfg 1 true f.cfg.count).getD [])

variable (f) in
/-- Every definition that reaches a use gets there during the visits. A handler that defines a register before
it uses it refers to itself, which is right only if it is the definition that reaches it. -/
structure Followed : Prop where
  entry : 0 < f.cfg.count
  first : ∀ u reg, f.Reachable u → UsedFirst (f.accesses u) reg → ∀ d, f.Reaches reg d u →
    f.Arrives f.fullVisits reg d u ∨ UsedLate (f.accesses u) reg ∧ d = u
  late : ∀ u reg, f.Reachable u → UsedLate (f.accesses u) reg →
    f.Reaches reg u u ∧ (UsedFirst (f.accesses u) reg ∨ ∀ d, f.Reaches reg d u → d = u)

omit [DecidableEq ρ] in
theorem sccOrder_none (h : f.cfg.count = 0) : sccOrder f.cfg 1 true f.cfg.count = none := by
  rw [h]
  rfl

/-- `loop: inc %rax; jne loop; ret`, with the registers as numbers. -/
def countingLoop : Function Nat where
  cfg :=
    { count := 2
      links := fun dir id => if dir = 1 then (if id = 0 then [0, 1] else []) else if id < 2 then [0] else []
      links_lt := fun dir id hid n hn => by
        interval_cases id <;> split at hn <;> simp at hn <;> omega }
  block id :=
    if id = 0 then [⟨false, some [.use 0, .define 0]⟩, ⟨false, some [.use 16]⟩]
    else if id = 1 then [⟨false, some [.use 0]⟩] else []
  reverseLinks n m := by
    by_cases hn : n = 0
    · subst hn
      by_cases hm : m < 2
      · interval_cases m <;> simp
      · simp [hm]
        omega
    · by_cases hm : m < 2 <;> simp [hn, hm]

end Function

end Egalito.Analysis.UseDef
