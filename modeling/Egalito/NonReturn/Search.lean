import Egalito.NonReturn.Model
import Egalito.Lib.Escape
/-!
# The search finds every way out

`isNonReturn` caches a block before the blocks that are still open on the path are
answered, so a cached 1 can be wrong. The answer for the entry is right: every block
that the search gets to is below the entry, and a 0 reaches all blocks above it.
-/

open Egalito.Lib

namespace Egalito.NonReturn

section Graph

variable (s : State) (cfg : Function)

/-- The search goes no further here. -/
def Stops (n : Nat) : Prop := ∃ b, cfg.blocks[n]? = some b ∧ scan s b.instructions = none

/-- The search finds a way out here. -/
def Leaves (n : Nat) : Prop :=
  cfg.forwardLinks n = [] ∨ ∃ b, cfg.blocks[n]? = some b ∧ scan s b.instructions = some false

def Linked (n m : Nat) : Prop := m ∈ cfg.forwardLinks n

/-- The search finds a way out from a block. -/
def WayOut (n : Nat) : Prop := Escapes (Stops s cfg) (Leaves s cfg) (Linked cfg) n

/-! ## What the cache holds -/

/-- The cache while the blocks of a path are open: a 0 is right, a 1 at least for the block
itself, and the search has gone on from every block in it. -/
structure Cached (done : Done) (path : List Nat) : Prop where
  closed : ∀ k, (done.lookup k).isSome → ∀ m ∈ cfg.forwardLinks k,
    Stops s cfg m ∨ (done.lookup m).isSome ∨ m ∈ path
  found : ∀ k, done.lookup k = some false → WayOut s cfg k
  inside : ∀ k, done.lookup k = some true → ¬ Leaves s cfg k

/-- What answering `targets` has done to the cache. If it found no way out, all new answers are 1. -/
structure Explored (done done' : Done) (path targets : List Nat) (ret : Bool) : Prop where
  cached : Cached s cfg done' path
  grows : ∀ k r, done.lookup k = some r → done'.lookup k = some r
  covered : ∀ m ∈ targets, Stops s cfg m ∨ (done'.lookup m).isSome ∨ m ∈ path
  found : ret = false → ∃ m ∈ targets, WayOut s cfg m
  fresh : ret = true → ∀ k, done.lookup k = none → done'.lookup k ≠ some false

end Graph

variable {s : State} {cfg : Function} {done done' done'' : Done} {path targets targets' : List Nat} {ret ret' : Bool}

theorem Cached.open (h : Cached s cfg done path) (bl : Nat) : Cached s cfg done (bl :: path) := by
  refine ⟨fun k hk m hm => ?_, h.found, h.inside⟩
  rcases h.closed k hk m hm with hs | hs | hs
  · exact .inl hs
  · exact .inr (.inl hs)
  · exact .inr (.inr (List.mem_cons_of_mem _ hs))

/-- An answer that leaves the cache as it is. -/
theorem Explored.same (h : Cached s cfg done path) {bl : Nat}
    (hc : Stops s cfg bl ∨ (done.lookup bl).isSome ∨ bl ∈ path) (hf : ret = false → WayOut s cfg bl) :
    Explored s cfg done done path [bl] ret where
  cached := h
  grows _ _ hk := hk
  covered := by simpa using hc
  found hr := ⟨bl, List.mem_singleton_self bl, hf hr⟩
  fresh _ k hk := by simp [hk]

theorem Explored.nil (h : Cached s cfg done path) : Explored s cfg done done path [] true where
  cached := h
  grows _ _ hk := hk
  covered := by simp
  found hr := by cases hr
  fresh _ k hk := by simp [hk]

theorem Explored.append (h : Explored s cfg done done' path targets ret)
    (h' : Explored s cfg done' done'' path targets' ret') :
    Explored s cfg done done'' path (targets ++ targets') (ret && ret') where
  cached := h'.cached
  grows k r hk := h'.grows k r (h.grows k r hk)
  covered m hm := by
    rcases List.mem_append.1 hm with hm | hm
    · rcases h.covered m hm with hs | hs | hs
      · exact .inl hs
      · obtain ⟨r, hr⟩ := Option.isSome_iff_exists.1 hs
        exact .inr (.inl (Option.isSome_iff_exists.2 ⟨r, h'.grows m r hr⟩))
      · exact .inr (.inr hs)
    · exact h'.covered m hm
  found hr := by
    rcases Bool.and_eq_false_iff.1 hr with hr | hr
    · obtain ⟨m, hm, hw⟩ := h.found hr
      exact ⟨m, List.mem_append_left _ hm, hw⟩
    · obtain ⟨m, hm, hw⟩ := h'.found hr
      exact ⟨m, List.mem_append_right _ hm, hw⟩
  fresh hr k hk := by
    obtain ⟨hr1, hr2⟩ := Bool.and_eq_true_iff.1 hr
    cases hmid : done'.lookup k with
    | none => exact h'.fresh hr2 k hmid
    | some r =>
      rw [h'.grows k r hmid, ← hmid]
      exact h.fresh hr1 k hk

/-! ## One block -/

theorem lookup_cons_ne {k bl : Nat} (h : k ≠ bl) : ((bl, ret) :: done).lookup k = done.lookup k := by
  rw [List.lookup_cons, beq_false_of_ne h]

theorem lookup_cons_same {bl : Nat} : ((bl, ret) :: done).lookup bl = some ret := by
  rw [List.lookup_cons, beq_self_eq_true]

/-- A block is cached after its links, with their answers and its own. -/
theorem Explored.close {bl : Nat} {b : Block} (hb : cfg.blocks[bl]? = some b) {own : Bool}
    (hscan : scan s b.instructions = some own) (hnew : done.lookup bl = none)
    (h : Explored s cfg done done' (bl :: path) (cfg.forwardLinks bl) ret) :
    Explored s cfg done ((bl, own && ret && !(cfg.forwardLinks bl).isEmpty) :: done') path [bl]
      (own && ret && !(cfg.forwardLinks bl).isEmpty) := by
  have hstop : ¬ Stops s cfg bl := by
    rintro ⟨b', hb', hs⟩
    cases hb.symm.trans hb'
    rw [hscan] at hs
    cases hs
  have hwayout : (own && ret && !(cfg.forwardLinks bl).isEmpty) = false → WayOut s cfg bl := by
    intro hr
    rcases Bool.and_eq_false_iff.1 hr with hr | hr
    · rcases Bool.and_eq_false_iff.1 hr with hr | hr
      · exact ⟨bl, .start, hstop, .inr ⟨b, hb, by rw [hscan, hr]⟩⟩
      · obtain ⟨m, hm, hw⟩ := h.found hr
        exact hw.cons hstop hm
    · exact ⟨bl, .start, hstop, .inl (List.isEmpty_iff.1 (by simpa using hr))⟩
  have hlook : ∀ m, (done'.lookup m).isSome ∨ m ∈ bl :: path →
      (((bl, own && ret && !(cfg.forwardLinks bl).isEmpty) :: done').lookup m).isSome ∨ m ∈ path := by
    intro m hm
    by_cases hmb : m = bl
    · subst hmb
      exact .inl (by rw [lookup_cons_same]; rfl)
    · rw [lookup_cons_ne hmb]
      exact hm.imp_right fun hm => (List.mem_cons.1 hm).resolve_left hmb
  refine ⟨⟨fun k hk m hm => ?_, fun k hk => ?_, fun k hk => ?_⟩, fun k r hk => ?_, ?_, ?_, ?_⟩
  · by_cases hkb : k = bl
    · subst hkb
      exact (h.covered m hm).imp_right (hlook m)
    · rw [lookup_cons_ne hkb] at hk
      exact (h.cached.closed k hk m hm).imp_right (hlook m)
  · by_cases hkb : k = bl
    · subst hkb
      rw [lookup_cons_same, Option.some_inj] at hk
      exact hwayout hk
    · rw [lookup_cons_ne hkb] at hk
      exact h.cached.found k hk
  · by_cases hkb : k = bl
    · subst hkb
      rw [lookup_cons_same, Option.some_inj, Bool.and_eq_true_iff, Bool.and_eq_true_iff] at hk
      rintro (hl | ⟨b', hb', hs⟩)
      · rw [hl] at hk
        exact absurd hk.2 (by simp)
      · cases hb.symm.trans hb'
        rw [hscan, hk.1.1] at hs
        cases hs
    · rw [lookup_cons_ne hkb] at hk
      exact h.cached.inside k hk
  · have hkb : k ≠ bl := by
      rintro rfl
      rw [hnew] at hk
      cases hk
    rw [lookup_cons_ne hkb]
    exact h.grows k r hk
  · intro m hm
    rw [List.mem_singleton.1 hm]
    exact .inr (.inl (by rw [lookup_cons_same]; rfl))
  · intro hr
    exact ⟨bl, List.mem_singleton_self bl, hwayout hr⟩
  · intro hr k hk
    by_cases hkb : k = bl
    · subst hkb
      rw [lookup_cons_same, hr]
      simp
    · rw [lookup_cons_ne hkb]
      rw [Bool.and_eq_true_iff, Bool.and_eq_true_iff] at hr
      exact h.fresh hr.1.2 k hk

theorem forwardLinks_lt {n m : Nat} (h : m ∈ cfg.forwardLinks n) : m < cfg.blocks.length := by
  unfold Function.forwardLinks at h
  split at h
  · cases h
  · exact of_decide_eq_true (List.mem_filter.1 h).2

/-! ## The whole search -/

/-- The call answers with enough fuel, and this is what it has done. -/
def Answers (s : State) (cfg : Function) (fuel : Nat) (path : List Nat) (bl : Nat) : Prop :=
  ∀ done, Cached s cfg done path → ∃ t done', (isNonReturn s cfg fuel path bl).run done = some (t, done') ∧
    (t = none → bl ∈ path) ∧ Explored s cfg done done' path [bl] (t != some false)

theorem combine_eq (ret : Bool) (t : Option Bool) : combine ret t = (ret && t != some false) := by
  rcases t with _ | _ | _ <;> cases ret <;> rfl

/-- The loop over the links. -/
theorem links_answered {fuel : Nat} (links : List Nat) (hlinks : ∀ m ∈ links, Answers s cfg fuel path m)
    (hc : Cached s cfg done path) (own : Bool) :
    ∃ ret done', StateT.run (links.foldlM (fun ret dest => combine ret <$> isNonReturn s cfg fuel path dest) own)
        done = some (own && ret, done') ∧ Explored s cfg done done' path links ret := by
  induction links generalizing done own with
  | nil => exact ⟨true, done, by simp, .nil hc⟩
  | cons m rest ih =>
    obtain ⟨t, done1, hrun, -, hex⟩ := hlinks m List.mem_cons_self done hc
    obtain ⟨ret, done2, hrest, hex'⟩ :=
      ih (fun m hm => hlinks m (List.mem_cons_of_mem _ hm)) hex.cached (combine own t)
    refine ⟨(t != some false) && ret, done2, ?_, hex.append hex'⟩
    rw [List.foldlM_cons, StateT.run_bind, StateT.run_map, hrun, ← Bool.and_assoc, ← combine_eq, ← hrest]
    rfl

/-- The induction is on the fuel; the path has each block once, so there is enough of it. -/
theorem isNonReturn_answers (fuel : Nat) (path : List Nat) (bl : Nat) (hbl : bl < cfg.blocks.length)
    (hpath : ∀ v ∈ path, v < cfg.blocks.length) (hnodup : path.Nodup) (hfuel : cfg.blocks.length < fuel + path.length) :
    Answers s cfg fuel path bl := by
  induction fuel generalizing path bl with
  | zero =>
    have hle := (hnodup.subperm fun v hv => List.mem_range.2 (hpath v hv)).length_le
    rw [List.length_range] at hle
    omega
  | succ fuel ih =>
    intro done hc
    cases hlook : done.lookup bl with
    | some ret =>
      refine ⟨some ret, done, by simp [isNonReturn, hlook], by simp, .same hc (.inr (.inl (by simp [hlook]))) ?_⟩
      intro hr
      exact hc.found bl (by simpa [hlook] using hr)
    | none =>
      by_cases hmem : bl ∈ path
      · exact ⟨none, done, by simp [isNonReturn, hlook, hmem], fun _ => hmem,
          .same hc (.inr (.inr hmem)) (by simp)⟩
      · have hb : cfg.blocks[bl]? = some cfg.blocks[bl] := List.getElem?_eq_getElem hbl
        cases hscan : scan s (cfg.blocks[bl]).instructions with
        | none =>
          exact ⟨some true, done, by simp [isNonReturn, hlook, hmem, hb, hscan], by simp,
            .same hc (.inl ⟨_, hb, hscan⟩) (by simp)⟩
        | some own =>
          have hlinks : ∀ m ∈ cfg.forwardLinks bl, Answers s cfg fuel (bl :: path) m := by
            intro m hm
            refine ih (bl :: path) m (forwardLinks_lt hm) ?_ (List.nodup_cons.2 ⟨hmem, hnodup⟩) ?_
            · intro v hv
              rcases List.mem_cons.1 hv with rfl | hv
              · exact hbl
              · exact hpath v hv
            · rw [List.length_cons]
              omega
          obtain ⟨ret, done', hrun, hex⟩ := links_answered _ hlinks (hc.open bl) own
          have hclose := hex.close hb hscan hlook
          refine ⟨some (own && ret && !(cfg.forwardLinks bl).isEmpty),
            (bl, own && ret && !(cfg.forwardLinks bl).isEmpty) :: done', ?_, by simp, ?_⟩
          · simp only [isNonReturn, StateT.run_bind, StateT.run_get, Option.pure_def, Option.bind_eq_bind,
              Option.bind_some, hlook, if_neg hmem, hb, hscan, hrun]
            rfl
          · generalize (own && ret && !(cfg.forwardLinks bl).isEmpty) = r at hclose ⊢
            cases r <;> exact hclose

theorem cached_nil (s : State) (cfg : Function) : Cached s cfg [] [] := by
  constructor <;> intro k hk <;> cases hk

/-- The answer for the entry is 1 exactly when there is no way out of the function. -/
theorem neverReturns_spec (s : State) (cfg : Function) :
    ∃ r, neverReturns s cfg = some r ∧ (r = true ↔ cfg.blocks ≠ [] ∧ ¬ WayOut s cfg 0) := by
  by_cases hempty : cfg.blocks = []
  · exact ⟨false, by simp [neverReturns, hempty], by simp [hempty]⟩
  · obtain ⟨t, done, hrun, hpath, hex⟩ := isNonReturn_answers (s := s) (cfg.blocks.length + 1) [] 0
      (List.length_pos_of_ne_nil hempty) (by simp) List.nodup_nil (by simp) [] (cached_nil s cfg)
    refine ⟨t == some true, by simp [neverReturns, hempty, hrun], ?_⟩
    rcases t with _ | _ | _
    · exact absurd (hpath rfl) (by simp)
    · obtain ⟨m, hm, hw⟩ := hex.found rfl
      rw [List.mem_singleton.1 hm] at hw
      exact iff_of_false (by simp) fun h => h.2 hw
    · refine iff_of_true (by simp) ⟨hempty, ?_⟩
      -- every block that the walk gets to has been answered, and with 1
      have hall : ∀ n, Passes (Stops s cfg) (Linked cfg) 0 n → Stops s cfg n ∨ (done.lookup n).isSome := by
        intro n hn
        induction hn with
        | start => simpa using hex.covered 0 (by simp)
        | step _ hstop hlink ih =>
          rcases hex.cached.closed _ (ih.resolve_left hstop) _ hlink with h | h | h
          · exact .inl h
          · exact .inr h
          · cases h
      rintro ⟨n, hn, hstop, hleave⟩
      obtain ⟨r, hr⟩ := Option.isSome_iff_exists.1 ((hall n hn).resolve_left hstop)
      have hne := hex.fresh rfl n rfl
      rw [hr] at hne
      cases r with
      | false => exact hne rfl
      | true => exact hex.cached.inside n hr hleave

end Egalito.NonReturn
