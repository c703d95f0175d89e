import Mathlib.Tactic
/-!
# Dominators

Dominance in a rooted graph, and trees of candidates for the immediate
dominators, given by the parent of each node. A parent moves up the tree when it
is replaced by the nearest common ancestor of the predecessors; `Good` is what
such a tree keeps, and it is enough to bound the true dominators from above.
-/

namespace Egalito.Lib

variable {α : Type}

/-! ## Paths -/

section Paths

variable (E : α → α → Prop) (root : α)

/-- The nodes of a path from the root to a node, the last one first. -/
inductive PathTo : List α → α → Prop
  | start : PathTo [root] root
  | step {p : List α} {u v : α} : PathTo p u → E u v → PathTo (v :: p) v

/-- On every path from the root. -/
def Dominates (d v : α) : Prop := ∀ p, PathTo E root p v → d ∈ p

def Reachable (v : α) : Prop := ∃ p, PathTo E root p v

variable {E root} {d u v : α}

theorem PathTo.mem {p : List α} (h : PathTo E root p v) : v ∈ p := by
  cases h with
  | start => exact List.mem_cons_self
  | step => exact List.mem_cons_self

theorem dominates_refl : Dominates E root v v := fun _ h => h.mem

theorem Dominates.pred (h : Dominates E root d v) (hne : d ≠ v) (hedge : E u v) : Dominates E root d u := by
  intro p hp
  exact (List.mem_cons.1 (h _ (hp.step hedge))).resolve_left hne

/-- With a numbering in which every node has an earlier predecessor, dominators come first. -/
theorem rank_le_of_dominates {rank : α → Nat}
    (hpred : ∀ v, Reachable E root v → v ≠ root → ∃ u, Reachable E root u ∧ E u v ∧ rank u < rank v)
    (hv : Reachable E root v) (h : Dominates E root d v) : rank d ≤ rank v := by
  have hpath : ∀ n v, rank v = n → Reachable E root v → ∃ p, PathTo E root p v ∧ ∀ w ∈ p, rank w ≤ rank v := by
    intro n
    induction n using Nat.strong_induction_on with
    | _ n ih =>
      intro v hn hv
      by_cases hr : v = root
      · subst hr
        exact ⟨[v], .start, by simp⟩
      · obtain ⟨u, hu, hedge, hlt⟩ := hpred v hv hr
        obtain ⟨p, hp, hle⟩ := ih (rank u) (hn ▸ hlt) u rfl hu
        refine ⟨v :: p, hp.step hedge, fun w hw => ?_⟩
        rcases List.mem_cons.1 hw with rfl | hw
        · exact le_rfl
        · exact (hle w hw).trans hlt.le
  obtain ⟨p, hp, hle⟩ := hpath _ v rfl hv
  exact hle d (h p hp)

end Paths

/-! ## Trees given by parents -/

/-- The first node is met on the way up from the second, or is the second itself. -/
inductive Above (π : α → Option α) : α → α → Prop
  | refl (a : α) : Above π a a
  | climb {a b c : α} : π b = some c → Above π a c → Above π a b

/-- Parents come before their children, and have parents. -/
structure Ranked (π : α → Option α) (rank : α → Nat) (root : α) : Prop where
  atRoot : π root = some root
  lower : ∀ b c, π b = some c → b ≠ root → rank c < rank b
  parent : ∀ b c, π b = some c → (π c).isSome

section Tree

variable {π : α → Option α} {rank : α → Nat} {root a b c z : α}

theorem Above.trans (h : Above π a b) (h' : Above π b c) : Above π a c := by
  induction h' with
  | refl => exact h
  | climb hc _ ih => exact .climb hc ih

theorem Above.of_parent (h : Above π a b) (hne : a ≠ b) (hc : π b = some c) : Above π a c := by
  cases h with
  | refl => exact absurd rfl hne
  | climb hd h =>
    rw [hc, Option.some_inj] at hd
    exact hd ▸ h

variable (hr : Ranked π rank root)

include hr

theorem Ranked.rank_le (h : Above π a b) : rank a ≤ rank b := by
  induction h with
  | refl => exact le_rfl
  | @climb b c hc _ ih =>
    by_cases hb : b = root
    · rw [hb, hr.atRoot, Option.some_inj] at hc
      rw [hb, hc]
      exact ih
    · exact ih.trans (hr.lower b c hc hb).le

theorem Ranked.eq_root (h : Above π a root) : a = root := by
  generalize hb : root = b at h
  induction h with
  | refl => rfl
  | climb hc _ ih =>
    subst hb
    rw [hr.atRoot, Option.some_inj] at hc
    exact (ih hc).trans hc.symm

theorem Ranked.isSome (h : Above π a b) (hb : (π b).isSome) : (π a).isSome := by
  induction h with
  | refl => exact hb
  | climb hc _ ih => exact ih (hr.parent _ _ hc)

/-- A node that is not later than one above it is that one. -/
theorem Ranked.eq_of_rank_le (h : Above π a b) (hle : rank b ≤ rank a) : a = b := by
  induction h with
  | refl => rfl
  | @climb b c hc h ih =>
    by_cases hb : b = root
    · subst hb
      rw [hr.atRoot, Option.some_inj] at hc
      exact hc ▸ ih (hc ▸ hle)
    · have hlow := hr.lower b c hc hb
      have := hr.rank_le h
      omega

/-- The way up is a line. -/
theorem Ranked.above_of_rank_le (ha : Above π a c) (hb : Above π b c) (hle : rank a ≤ rank b) : Above π a b := by
  have hline : Above π a b ∨ Above π b a := by
    induction ha with
    | refl => exact .inr hb
    | climb hc h ih =>
      cases hb with
      | refl => exact .inl (.climb hc h)
      | climb hd hb =>
        rw [hc, Option.some_inj] at hd
        exact ih (hd ▸ hb)
  rcases hline with h | h
  · exact h
  · rw [hr.eq_of_rank_le h hle]
    exact .refl a

end Tree

/-- The nearest common ancestor of some nodes. -/
structure IsMeet (π : α → Option α) (S : α → Prop) (q : α) : Prop where
  above : ∀ p, S p → Above π q p
  nearest : ∀ z, (∀ p, S p → Above π z p) → Above π z q

/-! ## Candidates for the immediate dominators -/

section Candidates

variable (E : α → α → Prop) (root : α) (rank : α → Nat)

/-- The tree has nodes that are reached, and no dominator of a node is lost at its parent. -/
structure Sound (π : α → Option α) : Prop extends Ranked π rank root where
  reached : ∀ b c, π b = some c → Reachable E root b
  kept : ∀ x y, π x = some y → x ≠ root → ∀ d, Dominates E root d x → d ≠ x → Dominates E root d y

/-- The parent of `x` fits to its predecessors: it is above the earlier ones, of which there are some, and
not higher than what is above all of them. -/
structure Fits (π : α → Option α) (x y : α) : Prop where
  support : ∃ p, (π p).isSome ∧ E p x ∧ rank p < rank x
  earlier : ∀ p, (π p).isSome → E p x → rank p < rank x → Above π y p
  nearest : ∀ z, (∀ p, (π p).isSome → E p x → Above π z p) → Above π z y

structure Good (π : α → Option α) : Prop extends Sound E root rank π where
  fits : ∀ x y, π x = some y → x ≠ root → Fits E rank π x y

/-- The state of a pass over the nodes by their rank: from the rank `i` on it is as it was at the
start, and the parents have only moved up. -/
structure Advanced (start π : α → Option α) (i : Nat) : Prop where
  sound : Sound E root rank π
  fits : ∀ x y, rank x < i → π x = some y → x ≠ root → Fits E rank π x y
  later : ∀ b, i ≤ rank b → π b = start b
  moved : ∀ b o, start b = some o → ∃ m, π b = some m ∧ Above π m o

variable {E root rank} {π start : α → Option α} {d p q x z : α} {i : Nat}

/-- The dominators of a node are above it, and dominate what is between. -/
theorem Sound.above_of_dominates (hg : Sound E root rank π) (hp : (π p).isSome) (h : Dominates E root d p) :
    Above π d p := by
  induction hn : rank p using Nat.strong_induction_on generalizing p with
  | _ n ih =>
    by_cases hd : d = p
    · exact hd ▸ .refl d
    · obtain ⟨c, hc⟩ := Option.isSome_iff_exists.1 hp
      have hroot : p ≠ root := fun he => by
        subst he
        exact hd (List.mem_singleton.1 (h _ .start))
      exact .climb hc (ih _ (hn ▸ hg.lower p c hc hroot) (hg.parent p c hc) (hg.kept p c hc hroot d h hd) rfl)

theorem Sound.dominates_between (hg : Sound E root rank π) (hq : Above π q p) (hd : Above π d q)
    (h : Dominates E root d p) : Dominates E root d q := by
  induction hq with
  | refl => exact h
  | @climb p c hc hq ih =>
    by_cases hroot : p = root
    · subst hroot
      rw [hg.atRoot, Option.some_inj] at hc
      exact ih (hc ▸ h)
    · by_cases hdp : d = p
      · -- a node above itself
        have hle : rank p ≤ rank q := hdp ▸ hg.rank_le hd
        have := hg.rank_le hq
        have := hg.lower p c hc hroot
        omega
      · exact ih (hg.kept p c hc hroot d h hdp)

section Update

variable [DecidableEq α]

/-- Below the node nothing changes. -/
theorem Ranked.above_update_iff (hr : Ranked π rank root) (hp : rank p < rank x) :
    Above (Function.update π x (some q)) z p ↔ Above π z p := by
  constructor
  · intro h
    induction h with
    | refl => exact .refl _
    | @climb b c hc _ ih =>
      have hb : b ≠ x := fun he => (he ▸ hp).false
      rw [Function.update_of_ne hb] at hc
      by_cases hroot : b = root
      · have : c = b := by rw [hroot, hr.atRoot, Option.some_inj] at hc; rw [hroot, hc]
        exact .climb hc (ih (this ▸ hp))
      · exact .climb hc (ih ((hr.lower b c hc hroot).trans hp))
  · intro h
    induction h with
    | refl => exact .refl _
    | @climb b c hc _ ih =>
      have hb : b ≠ x := fun he => (he ▸ hp).false
      have hle : rank c ≤ rank b := hr.rank_le (.climb hc (.refl c))
      exact .climb (by rwa [Function.update_of_ne hb]) (ih (hle.trans_lt hp))

/-- A parent that moves up only takes nodes off the ways up. -/
theorem Ranked.above_of_update (hr : Ranked π rank root) (hq : (π q).isSome) (hup : ∀ o, π x = some o → Above π q o)
    (hp : (π p).isSome) (h : Above (Function.update π x (some q)) z p) : Above π z p := by
  induction h with
  | refl => exact .refl _
  | @climb b c hc _ ih =>
    obtain ⟨o, ho⟩ := Option.isSome_iff_exists.1 hp
    by_cases hb : b = x
    · subst hb
      rw [Function.update_self, Option.some_inj] at hc
      subst hc
      exact .climb ho ((ih hq).trans (hup o ho))
    · rw [Function.update_of_ne hb] at hc
      exact .climb hc (ih (hr.parent b c hc))

end Update

/-! ## One pass -/

section Pass

variable {a b : α} (hs : Good E root rank start) (ha : Advanced E root rank start π i)

include hs ha

theorem Advanced.above_start (hb : (start b).isSome) (h : Above π z b) : Above start z b := by
  induction hn : rank b using Nat.strong_induction_on generalizing b with
  | _ n ih =>
    obtain ⟨o, ho⟩ := Option.isSome_iff_exists.1 hb
    obtain ⟨m, hm, hmo⟩ := ha.moved b o ho
    by_cases hroot : b = root
    · subst hroot
      rw [ha.sound.eq_root h]
      exact .refl b
    · by_cases hz : z = b
      · exact hz ▸ .refl z
      · exact .climb ho (ih _ (hn ▸ hs.lower b o ho hroot) (hs.parent b o ho) ((h.of_parent hz hm).trans hmo) rfl)

/-- What a node keeps above it, the nodes between keep as well. -/
theorem Advanced.above_between (hb : (start b).isSome) (hab : Above start a b) (hza : Above start z a)
    (h : Above π z b) : Above π z a := by
  induction hn : rank b using Nat.strong_induction_on generalizing b with
  | _ n ih =>
    by_cases he : a = b
    · exact he ▸ h
    · obtain ⟨o, ho⟩ := Option.isSome_iff_exists.1 hb
      obtain ⟨m, hm, hmo⟩ := ha.moved b o ho
      have hroot : b ≠ root := fun hr => he (by rw [hr] at hab ⊢; exact hs.eq_root hab)
      have hzb : z ≠ b := fun hz => he (hs.eq_of_rank_le hab (hz ▸ hs.rank_le hza))
      exact ih _ (hn ▸ hs.lower b o ho hroot) (hs.parent b o ho) (hab.of_parent he ho)
        ((h.of_parent hzb hm).trans hmo) rfl

/-- The new parent is above the old one, because the earlier predecessors have been updated before. -/
theorem Advanced.above_old {o : α} (hi : rank x = i) (hx : x ≠ root) (ho : π x = some o)
    (hq : IsMeet π (fun p => (π p).isSome ∧ E p x) q) : Above π q o := by
  have hso : start x = some o := by rw [← ho, ha.later x hi.ge]
  have hsome : ∀ p, (start p).isSome → (π p).isSome := fun p hp => by
    obtain ⟨c, hc⟩ := Option.isSome_iff_exists.1 hp
    obtain ⟨m, hm, -⟩ := ha.moved p c hc
    rw [hm]
    rfl
  have hfit := hs.fits x o hso hx
  have hold : Above start q o :=
    hfit.nearest q fun p hp hedge => ha.above_start hs hp (hq.above p ⟨hsome p hp, hedge⟩)
  obtain ⟨p, hp, hedge, hlt⟩ := hfit.support
  exact ha.above_between hs hp (hfit.earlier p hp hedge hlt) hold (hq.above p ⟨hsome p hp, hedge⟩)

/-- One step of a pass. -/
theorem Advanced.step [DecidableEq α] (hi : rank x = i) (hx : x ≠ root) (hreach : Reachable E root x)
    (hinj : ∀ a b, Reachable E root a → Reachable E root b → rank a = rank b → a = b)
    (hsup : ∃ p, (π p).isSome ∧ E p x ∧ rank p < rank x)
    (hq : IsMeet π (fun p => (π p).isSome ∧ E p x) q) :
    Advanced E root rank start (Function.update π x (some q)) (i + 1) := by
  have hsound := ha.sound
  have hold : ∀ o, π x = some o → Above π q o := fun o ho => ha.above_old hs hi hx ho hq
  obtain ⟨p₀, hp₀, hedge₀, hlt₀⟩ := hsup
  have hqp₀ := hq.above p₀ ⟨hp₀, hedge₀⟩
  have hqsome : (π q).isSome := hsound.isSome hqp₀ hp₀
  have hqlt : rank q < rank x := (hsound.rank_le hqp₀).trans_lt hlt₀
  have hsome : ∀ p, (π p).isSome → (Function.update π x (some q) p).isSome := fun p hp => by
    by_cases hpx : p = x
    · rw [hpx, Function.update_self]
      rfl
    · rwa [Function.update_of_ne hpx]
  have hsome' : ∀ p, rank p < rank x → (Function.update π x (some q) p).isSome → (π p).isSome := fun p hp h => by
    rwa [Function.update_of_ne (fun he => (he ▸ hp).false)] at h
  have hbelow : ∀ {z p}, rank p < rank x → (Above (Function.update π x (some q)) z p ↔ Above π z p) :=
    fun hp => hsound.above_update_iff hp
  have hshrink : ∀ {z p}, (π p).isSome → Above (Function.update π x (some q)) z p → Above π z p :=
    fun hp h => hsound.above_of_update hqsome hold hp h
  refine ⟨⟨⟨?_, fun b c hc hb => ?_, fun b c hc => ?_⟩, fun b c hc => ?_, fun b c hc hb d hd hne => ?_⟩,
    fun b c hbi hc hb => ?_, fun b hb => ?_, fun b o ho => ?_⟩
  · rw [Function.update_of_ne hx.symm, hsound.atRoot]
  · by_cases hbx : b = x
    · subst hbx
      rw [Function.update_self, Option.some_inj] at hc
      exact hc ▸ hqlt
    · rw [Function.update_of_ne hbx] at hc
      exact hsound.lower b c hc hb
  · by_cases hbx : b = x
    · subst hbx
      rw [Function.update_self, Option.some_inj] at hc
      exact hsome c (hc ▸ hqsome)
    · rw [Function.update_of_ne hbx] at hc
      exact hsome c (hsound.parent b c hc)
  · by_cases hbx : b = x
    · exact hbx ▸ hreach
    · rw [Function.update_of_ne hbx] at hc
      exact hsound.reached b c hc
  · by_cases hbx : b = x
    · subst hbx
      rw [Function.update_self, Option.some_inj] at hc
      have hall : ∀ p, (π p).isSome ∧ E p b → Above π d p := fun p hp =>
        hsound.above_of_dominates hp.1 (hd.pred hne hp.2)
      exact hc ▸ hsound.dominates_between hqp₀ (hq.nearest d hall) (hd.pred hne hedge₀)
    · rw [Function.update_of_ne hbx] at hc
      exact hsound.kept b c hc hb d hd hne
  · by_cases hbx : b = x
    · subst hbx
      rw [Function.update_self, Option.some_inj] at hc
      subst hc
      refine ⟨⟨p₀, hsome p₀ hp₀, hedge₀, hlt₀⟩, fun p hp hedge hlt => ?_, fun z hz => ?_⟩
      · exact (hbelow hlt).2 (hq.above p ⟨hsome' p hlt hp, hedge⟩)
      · exact (hbelow hqlt).2 (hq.nearest z fun p hp => hshrink hp.1 (hz p (hsome p hp.1) hp.2))
    · rw [Function.update_of_ne hbx] at hc
      have hbne : rank b ≠ rank x := fun he => hbx (hinj b x (hsound.reached b c hc) hreach he)
      have hblt : rank b < rank x := by omega
      have hfit := ha.fits b c (by omega) hc hb
      obtain ⟨p, hp, hedge, hlt⟩ := hfit.support
      refine ⟨⟨p, hsome p hp, hedge, hlt⟩, fun p hp hedge hlt => ?_, fun z hz => ?_⟩
      · have hpx := hlt.trans hblt
        exact (hbelow hpx).2 (hfit.earlier p (hsome' p hpx hp) hedge hlt)
      · exact (hbelow ((hsound.lower b c hc hb).trans hblt)).2
          (hfit.nearest z fun p hp hedge => hshrink hp (hz p (hsome p hp) hedge))
  · rw [Function.update_of_ne (fun he => by rw [he] at hb; omega)]
    exact ha.later b (by omega)
  · obtain ⟨m, hm, hmo⟩ := ha.moved b o ho
    by_cases hbx : b = x
    · subst hbx
      have hπo : π b = some o := by rw [ha.later b hi.ge, ho]
      refine ⟨q, Function.update_self .., (hbelow ?_).2 (hold o hπo)⟩
      exact hsound.lower b o hπo hx
    · refine ⟨m, by rwa [Function.update_of_ne hbx], ?_⟩
      by_cases hbi : rank b < i
      · refine (hbelow ?_).2 hmo
        have : rank o ≤ rank b := hs.rank_le (.climb ho (.refl o))
        omega
      · have : m = o := by
          rw [ha.later b (by omega), ho, Option.some_inj] at hm
          exact hm.symm
        exact this ▸ .refl m

end Pass

/-- A pass starts anywhere before the nodes that it changes. -/
theorem Good.advanced (hs : Good E root rank π) (i : Nat) : Advanced E root rank π π i :=
  ⟨hs.toSound, fun x y _ => hs.fits x y, fun _ _ => rfl, fun _ o ho => ⟨o, ho, .refl o⟩⟩

theorem Advanced.finish (ha : Advanced E root rank start π i) (hall : ∀ b, (π b).isSome → rank b < i) :
    Good E root rank π :=
  ⟨ha.sound, fun x y hy => ha.fits x y (hall x (by rw [hy]; rfl)) hy⟩

/-- The tree that no step changes has exactly the dominators above a node. -/
theorem Good.above_iff_dominates (hg : Good E root rank π)
    (hall : ∀ v, Reachable E root v → (π v).isSome)
    (hfix : ∀ x y, π x = some y → x ≠ root → ∀ p, (π p).isSome → E p x → Above π y p)
    {v : α} (hv : Reachable E root v) : Above π d v ↔ Dominates E root d v := by
  refine ⟨fun h p hp => ?_, hg.above_of_dominates (hall v hv)⟩
  induction hp generalizing d with
  | start =>
    rw [hg.eq_root h]
    exact List.mem_cons_self
  | @step p u v hp hedge ih =>
    by_cases hd : d = v
    · exact hd ▸ List.mem_cons_self
    · obtain ⟨y, hy⟩ := Option.isSome_iff_exists.1 (hall v hv)
      have hroot : v ≠ root := fun he => hd (by rw [he] at h ⊢; exact hg.eq_root h)
      have hu := hall u ⟨p, hp⟩
      exact List.mem_cons_of_mem _ (ih ⟨p, hp⟩ ((h.of_parent hd hy).trans (hfix v y hy hroot u hu hedge)))

end Candidates

end Egalito.Lib
