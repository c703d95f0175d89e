import Egalito.Analysis.ReachingDef
import Egalito.Lib.Run
/-!
# What the kill map orders

The kill map holds, for each instruction, the last writes and the reads since
then of what it touches. Its transitive closure relates exactly the instructions
that are joined by a chain of conflicts.
-/

open Egalito.Lib

namespace Egalito.Analysis.ReachingDef

/-! ## Conflicts -/

namespace Effect

/-- A barrier writes everything. -/
def Writes (l : Location) : Effect → Prop
  | .barrier => True
  | .accesses list => .write l ∈ list

def Reads (l : Location) : Effect → Prop
  | .barrier => False
  | .accesses list => .read l ∈ list

instance (l : Location) : (e : Effect) → Decidable (e.Writes l)
  | .barrier => isTrue trivial
  | .accesses list => inferInstanceAs (Decidable (.write l ∈ list))

instance (l : Location) : (e : Effect) → Decidable (e.Reads l)
  | .barrier => isFalse id
  | .accesses list => inferInstanceAs (Decidable (.read l ∈ list))

/-- One is a barrier, or one writes what the other one touches. -/
def Conflicts (e e' : Effect) : Prop :=
  e = .barrier ∨ e' = .barrier ∨ ∃ l, e.Writes l ∧ (e'.Reads l ∨ e'.Writes l) ∨ e.Reads l ∧ e'.Writes l

end Effect

/-- The places `i < j` of two instructions that conflict. -/
def ConflictAt (effects : List Effect) (j i : Nat) : Prop :=
  i < j ∧ ∃ e e', effects[i]? = some e ∧ effects[j]? = some e' ∧ e.Conflicts e'

/-- From `j` down to `i`, each conflicts with the next. -/
def Chain (effects : List Effect) : Nat → Nat → Prop := Relation.TransGen (ConflictAt effects)

/-! ## One instruction -/

def writes (list : List Access) : List Location :=
  list.filterMap fun | .write l => some l | .read _ => none

theorem mem_writes {list : List Access} {l : Location} : l ∈ writes list ↔ .write l ∈ list := by
  unfold writes
  rw [List.mem_filterMap]
  constructor
  · rintro ⟨a, ha, hl⟩
    cases a with
    | read => cases hl
    | write =>
      cases hl
      exact ha
  · intro h
    exact ⟨_, h, rfl⟩

/-- A state that knows nothing of instruction `i` yet. -/
structure Fresh (s : State) (i : Nat) : Prop where
  kill : s.killMap i = []
  write : ∀ l, s.currentWriteMap l ≠ some i
  read : ∀ l, i ∉ s.currentReadMap l

/-- What the accesses of instruction `i` make of the state. -/
structure Performed (s : State) (i : Nat) (list : List Access) (s' : State) : Prop where
  kill : ∀ x, x ∈ s'.killMap i ↔
    (∃ l, (.read l ∈ list ∨ .write l ∈ list) ∧ s.currentWriteMap l = some x) ∨
    ∃ l, .write l ∈ list ∧ x ∈ s.currentReadMap l
  nodup : (s'.killMap i).Nodup
  others : ∀ j, j ≠ i → s'.killMap j = s.killMap j
  write : ∀ l, s'.currentWriteMap l = if .write l ∈ list then some i else s.currentWriteMap l
  read : ∀ l x, x ∈ s'.currentReadMap l ↔
    x = i ∧ .read l ∈ list ∨ .write l ∉ list ∧ x ∈ s.currentReadMap l
  readNodup : ∀ l, (s'.currentReadMap l).Nodup

variable {s s' : State} {i : Nat} {list : List Access} {l : Location}

theorem performed_nil (hs : Fresh s i) (hread : ∀ l, (s.currentReadMap l).Nodup) : Performed s i [] s := by
  refine ⟨fun x => ?_, ?_, fun _ _ => rfl, fun l => by simp, fun l x => by simp, hread⟩
  · rw [hs.kill]
    simp
  · rw [hs.kill]
    exact List.nodup_nil

theorem Performed.setRegRead (hs : Fresh s i) (h : Performed s i list s') :
    Performed s i (list ++ [.read l]) (setRegRead s' l i) := by
  have hkill : ∀ x, x ∈ (ReachingDef.setRegRead s' l i).killMap i ↔
      x ∈ s'.killMap i ∨ .write l ∉ list ∧ s.currentWriteMap l = some x := fun x => by
    unfold ReachingDef.setRegRead
    dsimp only
    rw [h.write l]
    by_cases hw : Access.write l ∈ list
    · simp [hw]
    · rw [if_neg hw]
      cases hwrite : s.currentWriteMap l with
      | none => simp
      | some w =>
        have hne : w ≠ i := fun hwi => hs.write l (hwi ▸ hwrite)
        simp [hne, hw, or_comm, eq_comm]
  refine ⟨fun x => ?_, ?_, fun j hj => ?_, fun m => ?_, fun m x => ?_, fun m => ?_⟩
  · rw [hkill, h.kill]
    simp only [List.mem_append, List.mem_singleton, reduceCtorEq, or_false, Access.read.injEq]
    constructor
    · rintro ((⟨m, hm, hx⟩ | hx) | ⟨-, hx⟩)
      · exact .inl ⟨m, hm.imp_left .inl, hx⟩
      · exact .inr hx
      · exact .inl ⟨l, .inl (.inr rfl), hx⟩
    · rintro (⟨m, (hm | rfl) | hm, hx⟩ | hx)
      · exact .inl (.inl ⟨m, .inl hm, hx⟩)
      · by_cases hw : Access.write m ∈ list
        · exact .inl (.inl ⟨m, .inr hw, hx⟩)
        · exact .inr ⟨hw, hx⟩
      · exact .inl (.inl ⟨m, .inr hm, hx⟩)
      · exact .inl (.inr hx)
  · unfold ReachingDef.setRegRead
    dsimp only
    rw [Function.update_self]
    split
    · split
      · exact h.nodup.insert
      · exact h.nodup
    · exact h.nodup
  · rw [← h.others j hj]
    exact Function.update_of_ne hj _ _
  · rw [show (ReachingDef.setRegRead s' l i).currentWriteMap m = s'.currentWriteMap m from rfl, h.write m]
    simp
  · change x ∈ Function.update s'.currentReadMap l _ m ↔ _
    by_cases hm : m = l
    · subst hm
      rw [Function.update_self, List.mem_insert_iff, h.read]
      simp
      tauto
    · rw [Function.update_of_ne hm, h.read]
      simp [hm]
  · change (Function.update s'.currentReadMap l _ m).Nodup
    by_cases hm : m = l
    · subst hm
      rw [Function.update_self]
      exact (h.readNodup m).insert
    · rw [Function.update_of_ne hm]
      exact h.readNodup m

/-- A second write of one location fails the assertion, as the first one is then killed. -/
theorem setRegWrite_twice (h : Performed s i list s') (hw : .write l ∈ list) : setRegWrite s' l i = none := by
  unfold setRegWrite
  dsimp only
  rw [h.write l, if_pos hw, if_pos]
  simp [insertWrite]

theorem Performed.setRegWrite (hs : Fresh s i) (h : Performed s i list s') (hw : .write l ∉ list) :
    ∃ s'', setRegWrite s' l i = some s'' ∧ Performed s i (list ++ [.write l]) s'' := by
  have hread : ∀ x, x ∈ (s'.currentReadMap l).erase i ↔ x ∈ s.currentReadMap l := fun x => by
    rw [(h.readNodup l).mem_erase_iff, h.read]
    constructor
    · rintro ⟨hne, ⟨hx, -⟩ | ⟨-, hx⟩⟩
      · exact absurd hx hne
      · exact hx
    · intro hx
      exact ⟨fun hxi => hs.read l (hxi ▸ hx), .inr ⟨hw, hx⟩⟩
  have hkill : ∀ x, x ∈ insertWrite (s'.killMap i) (s'.currentWriteMap l) ↔
      x ∈ s'.killMap i ∨ s.currentWriteMap l = some x := fun x => by
    rw [h.write l, if_neg hw]
    cases s.currentWriteMap l with
    | none => simp [insertWrite]
    | some w => simp [insertWrite, or_comm, eq_comm]
  have hself : i ∉ s'.killMap i := fun hmem => by
    rcases (h.kill i).1 hmem with ⟨m, -, hm⟩ | ⟨m, -, hm⟩
    · exact hs.write m hm
    · exact hs.read m hm
  unfold ReachingDef.setRegWrite
  dsimp only
  rw [if_neg]
  · refine ⟨_, rfl, fun x => ?_, ?_, fun j hj => ?_, fun m => ?_, fun m x => ?_, fun m => ?_⟩
    · dsimp only
      rw [Function.update_self, List.mem_union_iff, hkill, hread, h.kill]
      simp only [List.mem_append, List.mem_singleton, reduceCtorEq, or_false, Access.write.injEq]
      constructor
      · rintro (((⟨m, hm, hx⟩ | ⟨m, hm, hx⟩) | hx) | hx)
        · exact .inl ⟨m, hm.imp_right .inl, hx⟩
        · exact .inr ⟨m, .inl hm, hx⟩
        · exact .inl ⟨l, .inr (.inr rfl), hx⟩
        · exact .inr ⟨l, .inr rfl, hx⟩
      · rintro (⟨m, hm | hm | rfl, hx⟩ | ⟨m, hm | rfl, hx⟩)
        · exact .inl (.inl (.inl ⟨m, .inl hm, hx⟩))
        · exact .inl (.inl (.inl ⟨m, .inr hm, hx⟩))
        · exact .inl (.inr hx)
        · exact .inl (.inl (.inr ⟨m, hm, hx⟩))
        · exact .inr hx
    · dsimp only
      rw [Function.update_self]
      refine List.Nodup.union _ ?_
      exact (h.readNodup l).erase i
    · dsimp only
      rw [Function.update_of_ne hj, h.others j hj]
    · dsimp only
      by_cases hm : m = l
      · simp [hm]
      · rw [Function.update_of_ne hm, h.write m]
        simp [hm]
    · dsimp only
      by_cases hm : m = l
      · subst hm
        rw [Function.update_self]
        have hi : i ∈ s'.currentReadMap m ↔ .read m ∈ list := by
          rw [h.read]
          simp [hs.read m]
        by_cases hloop : i ∈ s'.currentReadMap m
        · simp [hloop, hi.1 hloop]
        · simp [hloop, mt hi.2 hloop]
      · rw [Function.update_of_ne hm, h.read]
        simp [hm]
    · dsimp only
      by_cases hm : m = l
      · subst hm
        rw [Function.update_self]
        split
        · exact List.nodup_singleton i
        · exact List.nodup_nil
      · rw [Function.update_of_ne hm]
        exact h.readNodup m
  · rw [List.mem_union_iff, hkill, hread]
    rintro ((hmem | hmem) | hmem)
    · exact hself hmem
    · exact hs.write l hmem
    · exact hs.read l hmem

/-- The assertions hold exactly if no location is written twice. -/
theorem perform_accesses (hs : Fresh s i) (hread : ∀ l, (s.currentReadMap l).Nodup) (list : List Access) :
    ((writes list).Nodup → ∃ s', perform s i (.accesses list) = some s' ∧ Performed s i list s') ∧
    (¬ (writes list).Nodup → perform s i (.accesses list) = none) := by
  unfold perform
  dsimp only
  induction list using List.reverseRecOn with
  | nil => exact ⟨fun _ => ⟨s, rfl, performed_nil hs hread⟩, fun h => absurd List.nodup_nil h⟩
  | append_singleton list a ih =>
    rw [List.foldlM_append]
    cases a with
    | read l =>
      have hwrites : writes (list ++ [.read l]) = writes list := by simp [writes]
      rw [hwrites]
      refine ⟨fun hnodup => ?_, fun hnodup => ?_⟩
      · obtain ⟨s', hs', hperformed⟩ := ih.1 hnodup
        exact ⟨setRegRead s' l i, by rw [hs']; rfl, hperformed.setRegRead hs⟩
      · rw [ih.2 hnodup]
        rfl
    | write l =>
      have hwrites : (writes (list ++ [.write l])).Nodup ↔ (writes list).Nodup ∧ .write l ∉ list := by
        rw [show writes (list ++ [.write l]) = (writes list).concat l by simp [writes], List.nodup_concat,
          ← mem_writes, and_comm]
      rw [hwrites]
      by_cases hnodup : (writes list).Nodup
      · obtain ⟨s', hs', hperformed⟩ := ih.1 hnodup
        rw [hs']
        refine ⟨fun h => ?_, fun h => ?_⟩
        · obtain ⟨s'', hs'', hperformed'⟩ := hperformed.setRegWrite hs h.2
          exact ⟨s'', by simpa [access] using hs'', hperformed'⟩
        · have hw : .write l ∈ list := by
            by_contra hw
            exact h ⟨hnodup, hw⟩
          simpa [access] using setRegWrite_twice hperformed hw
      · rw [ih.2 hnodup]
        exact ⟨fun h => absurd h.1 hnodup, fun _ => rfl⟩

/-! ## The instructions so far -/

/-- An edge of the kill map. -/
def Kills (s : State) (j i : Nat) : Prop := i ∈ s.killMap j

/-- The maps after the instructions with these effects. The last write of a location stands behind
all earlier ones, and the reads that it does not stand behind came after it. -/
structure Tracks (effects : List Effect) (s : State) : Prop where
  kill_sound : ∀ {j x}, Kills s j x → ConflictAt effects j x
  kill_nodup : ∀ j, (s.killMap j).Nodup
  write_sound : ∀ {l w}, s.currentWriteMap l = some w → ∃ e, effects[w]? = some e ∧ e.Writes l
  read_sound : ∀ {l x}, x ∈ s.currentReadMap l → ∃ e, effects[x]? = some e ∧ e.Reads l
  read_nodup : ∀ l, (s.currentReadMap l).Nodup
  write_complete : ∀ {l x e}, effects[x]? = some e → e.Writes l →
    ∃ w, s.currentWriteMap l = some w ∧ Relation.ReflTransGen (Kills s) w x
  read_complete : ∀ {l x e}, effects[x]? = some e → e.Reads l →
    x ∈ s.currentReadMap l ∨ ∃ w, s.currentWriteMap l = some w ∧ Relation.ReflTransGen (Kills s) w x
  kill_complete : ∀ {j x}, ConflictAt effects j x → Relation.TransGen (Kills s) j x

variable {effects : List Effect} {e : Effect}

theorem tracks_new : Tracks [] .new where
  kill_sound h := by simp [Kills, State.new] at h
  kill_nodup _ := List.nodup_nil
  write_sound h := by simp [State.new] at h
  read_sound h := by simp [State.new] at h
  read_nodup _ := List.nodup_nil
  write_complete h := by simp at h
  read_complete h := by simp at h
  kill_complete := by
    rintro j x ⟨-, e, e', h, -⟩
    simp at h

theorem getElem?_concat_of_some {x : Nat} {e' : Effect} (h : effects[x]? = some e') :
    (effects ++ [e])[x]? = some e' := by
  rw [List.getElem?_append_left (List.getElem?_eq_some_iff.1 h).1]
  exact h

theorem getElem?_concat_cases {x : Nat} {e' : Effect} (h : (effects ++ [e])[x]? = some e') :
    effects[x]? = some e' ∨ x = effects.length ∧ e' = e := by
  rcases Nat.lt_or_ge x effects.length with hx | hx
  · rw [List.getElem?_append_left hx] at h
    exact .inl h
  · rw [List.getElem?_append_right hx, List.getElem?_singleton] at h
    split at h
    · cases h
      exact .inr ⟨by omega, rfl⟩
    · cases h

theorem ConflictAt.concat {j x : Nat} (h : ConflictAt effects j x) : ConflictAt (effects ++ [e]) j x := by
  obtain ⟨hlt, e₁, e₂, h₁, h₂, hc⟩ := h
  exact ⟨hlt, e₁, e₂, getElem?_concat_of_some h₁, getElem?_concat_of_some h₂, hc⟩

/-- A new conflict is one with the last instruction. -/
theorem conflictAt_concat {j x : Nat} (h : ConflictAt (effects ++ [e]) j x) :
    ConflictAt effects j x ∨ j = effects.length ∧ ∃ e', effects[x]? = some e' ∧ e'.Conflicts e := by
  obtain ⟨hlt, e₁, e₂, h₁, h₂, hc⟩ := h
  rcases getElem?_concat_cases h₂ with h₂ | ⟨rfl, rfl⟩
  · rcases getElem?_concat_cases h₁ with h₁ | ⟨rfl, -⟩
    · exact .inl ⟨hlt, e₁, e₂, h₁, h₂, hc⟩
    · exact absurd (List.getElem?_eq_some_iff.1 h₂).1 (by omega)
  · rcases getElem?_concat_cases h₁ with h₁ | ⟨rfl, -⟩
    · exact .inr ⟨rfl, e₁, h₁, hc⟩
    · exact absurd hlt (Nat.lt_irrefl _)

theorem ConflictAt.last {x : Nat} {e' : Effect} (h : effects[x]? = some e') (hc : e'.Conflicts e) :
    ConflictAt (effects ++ [e]) effects.length x :=
  ⟨(List.getElem?_eq_some_iff.1 h).1, e', e, getElem?_concat_of_some h, by simp, hc⟩

theorem Tracks.fresh (h : Tracks effects s) : Fresh s effects.length := by
  refine ⟨List.eq_nil_iff_forall_not_mem.2 fun x hx => ?_, fun l hw => ?_, fun l hr => ?_⟩
  · obtain ⟨-, -, e, -, he, -⟩ := h.kill_sound hx
    simp at he
  · obtain ⟨e, he, -⟩ := h.write_sound hw
    simp at he
  · obtain ⟨e, he, -⟩ := h.read_sound hr
    simp at he

/-- The old edges stay, as only those of the new instruction change. -/
theorem Tracks.kills_mono (h : Tracks effects s) (hothers : ∀ j, j ≠ effects.length → s'.killMap j = s.killMap j)
    {j x : Nat} (hkill : Kills s j x) : Kills s' j x := by
  have hj : j ≠ effects.length := fun hj => by
    unfold Kills at hkill
    rw [hj, h.fresh.kill] at hkill
    cases hkill
  unfold Kills
  rw [hothers j hj]
  exact hkill

theorem Tracks.accesses (h : Tracks effects s) (hne : list ≠ []) (hs' : Performed s effects.length list s') :
    Tracks (effects ++ [.accesses list]) s' := by
  have hmono : ∀ {j x}, Kills s j x → Kills s' j x := h.kills_mono hs'.others
  have htrans : ∀ {j x}, Relation.TransGen (Kills s) j x → Relation.TransGen (Kills s') j x :=
    fun hjx => hjx.lift id fun _ _ => hmono
  have hrefl : ∀ {j x}, Relation.ReflTransGen (Kills s) j x → Relation.ReflTransGen (Kills s') j x :=
    fun hjx => hjx.lift id fun _ _ => hmono
  -- The new instruction stands behind every earlier write of what it touches, and every earlier
  -- read of what it writes.
  have hwritten : ∀ {l x e}, (.read l ∈ list ∨ .write l ∈ list) → effects[x]? = some e → e.Writes l →
      Relation.TransGen (Kills s') effects.length x := fun {l} x e hl hx he => by
    obtain ⟨w, hw, hwx⟩ := h.write_complete hx he
    exact .head' ((hs'.kill w).2 (.inl ⟨l, hl, hw⟩)) (hrefl hwx)
  have hreads : ∀ {l x e}, .write l ∈ list → effects[x]? = some e → e.Reads l →
      Relation.TransGen (Kills s') effects.length x := fun {l} x e hl hx he => by
    rcases h.read_complete hx he with hmem | ⟨w, hw, hwx⟩
    · exact .single ((hs'.kill x).2 (.inr ⟨l, hl, hmem⟩))
    · exact .head' ((hs'.kill w).2 (.inl ⟨l, .inr hl, hw⟩)) (hrefl hwx)
  constructor
  case kill_sound =>
    intro j x hkill
    by_cases hj : j = effects.length
    · subst hj
      rcases (hs'.kill x).1 hkill with ⟨l, hl, hw⟩ | ⟨l, hl, hr⟩
      · obtain ⟨e, he, hwl⟩ := h.write_sound hw
        exact .last he (.inr (.inr ⟨l, .inl ⟨hwl, hl⟩⟩))
      · obtain ⟨e, he, hrl⟩ := h.read_sound hr
        exact .last he (.inr (.inr ⟨l, .inr ⟨hrl, hl⟩⟩))
    · unfold Kills at hkill
      rw [hs'.others j hj] at hkill
      exact (h.kill_sound hkill).concat
  case kill_nodup =>
    intro j
    by_cases hj : j = effects.length
    · rw [hj]
      exact hs'.nodup
    · rw [hs'.others j hj]
      exact h.kill_nodup j
  case write_sound =>
    intro l w hw
    rw [hs'.write l] at hw
    split at hw
    case isTrue hl =>
      cases hw
      exact ⟨.accesses list, by simp, hl⟩
    case isFalse =>
      obtain ⟨e, he, hwl⟩ := h.write_sound hw
      exact ⟨e, getElem?_concat_of_some he, hwl⟩
  case read_sound =>
    intro l x hx
    rcases (hs'.read l x).1 hx with ⟨rfl, hl⟩ | ⟨-, hx⟩
    · exact ⟨.accesses list, by simp, hl⟩
    · obtain ⟨e, he, hrl⟩ := h.read_sound hx
      exact ⟨e, getElem?_concat_of_some he, hrl⟩
  case read_nodup => exact hs'.readNodup
  case write_complete =>
    intro l x e hx he
    rw [hs'.write l]
    rcases getElem?_concat_cases hx with hx | ⟨rfl, rfl⟩
    · split
      case isTrue hl => exact ⟨_, rfl, (hwritten (.inr hl) hx he).to_reflTransGen⟩
      case isFalse =>
        obtain ⟨w, hw, hwx⟩ := h.write_complete hx he
        exact ⟨w, hw, hrefl hwx⟩
    · exact ⟨_, if_pos he, .refl⟩
  case read_complete =>
    intro l x e hx he
    rw [hs'.write l, hs'.read]
    rcases getElem?_concat_cases hx with hx | ⟨rfl, rfl⟩
    · split
      case isTrue hl => exact .inr ⟨_, rfl, (hreads hl hx he).to_reflTransGen⟩
      case isFalse hl =>
        rcases h.read_complete hx he with hmem | ⟨w, hw, hwx⟩
        · exact .inl (.inr ⟨hl, hmem⟩)
        · exact .inr ⟨w, hw, hrefl hwx⟩
    · exact .inl (.inl ⟨rfl, he⟩)
  case kill_complete =>
    intro j x hconflict
    rcases conflictAt_concat hconflict with hold | ⟨rfl, e, hx, rfl | hbarrier | ⟨l, ⟨hw, hl⟩ | ⟨hr, hl⟩⟩⟩
    · exact htrans (h.kill_complete hold)
    · -- Behind a barrier, any access of the new instruction leads back to it.
      obtain ⟨a, ha⟩ := List.exists_mem_of_ne_nil list hne
      cases a with
      | read l => exact hwritten (.inl ha) hx (by trivial)
      | write l => exact hwritten (.inr ha) hx (by trivial)
    · cases hbarrier
    · exact hwritten hl hx hw
    · exact hreads hl hx hr

theorem Tracks.barrier (h : Tracks effects s) :
    Tracks (effects ++ [.barrier]) (setBarrier s effects.length) := by
  have hothers : ∀ j, j ≠ effects.length → (setBarrier s effects.length).killMap j = s.killMap j :=
    fun j hj => Function.update_of_ne hj _ _
  have hkill : ∀ x, Kills (setBarrier s effects.length) effects.length x ↔ x < effects.length := fun x => by
    unfold Kills setBarrier
    dsimp only
    rw [Function.update_self, h.fresh.kill]
    simp
  have hmono : ∀ j x, Kills s j x → Kills (setBarrier s effects.length) j x := fun _ _ => h.kills_mono hothers
  have hbehind : ∀ {x e}, effects[x]? = some e → Relation.TransGen (Kills (setBarrier s effects.length)) effects.length x :=
    fun hx => .single ((hkill _).2 (List.getElem?_eq_some_iff.1 hx).1)
  constructor
  case kill_sound =>
    intro j x hjx
    by_cases hj : j = effects.length
    · subst hj
      have hx := (hkill x).1 hjx
      exact .last (List.getElem?_eq_getElem hx) (.inr (.inl rfl))
    · unfold Kills at hjx
      rw [hothers j hj] at hjx
      exact (h.kill_sound hjx).concat
  case kill_nodup =>
    intro j
    by_cases hj : j = effects.length
    · subst hj
      unfold setBarrier
      dsimp only
      rw [Function.update_self]
      exact List.Nodup.union _ List.nodup_range
    · rw [hothers j hj]
      exact h.kill_nodup j
  case write_sound =>
    intro l w hw
    cases hw
    exact ⟨.barrier, by simp, trivial⟩
  case read_sound =>
    intro l x hx
    obtain ⟨e, he, hrl⟩ := h.read_sound hx
    exact ⟨e, getElem?_concat_of_some he, hrl⟩
  case read_nodup => exact h.read_nodup
  case write_complete =>
    intro l x e hx he
    refine ⟨_, rfl, ?_⟩
    rcases getElem?_concat_cases hx with hx | ⟨rfl, -⟩
    · exact (hbehind hx).to_reflTransGen
    · exact .refl
  case read_complete =>
    intro l x e hx he
    rcases getElem?_concat_cases hx with hx | ⟨rfl, rfl⟩
    · exact .inr ⟨_, rfl, (hbehind hx).to_reflTransGen⟩
    · cases he
  case kill_complete =>
    intro j x hconflict
    rcases conflictAt_concat hconflict with hold | ⟨rfl, e, hx, -⟩
    · exact (h.kill_complete hold).lift id hmono
    · exact hbehind hx

/-- The kill map is, up to transitivity, the conflicts. -/
theorem Tracks.transGen_iff (h : Tracks effects s) {j x : Nat} :
    Relation.TransGen (Kills s) j x ↔ Chain effects j x := by
  constructor
  · intro hjx
    exact hjx.lift id fun _ _ => h.kill_sound
  · intro hchain
    induction hchain with
    | single hjx => exact h.kill_complete hjx
    | tail _ hjx ih => exact ih.trans (h.kill_complete hjx)

/-! ## The block -/

theorem handler_ne_nil {instr : Instruction} (h : handler instr = some (.accesses list)) : list ≠ [] := by
  rintro rfl
  unfold handler fillAnd fillAddOrSub fillCmp fillLea fillMov fillMovabs fillPush fillPop at h
  split at h
  case h_13 => cases h
  all_goals split at h <;> simp [Option.bind_eq_some_iff] at h

/-- The effect that the analysis gives an instruction. -/
def effectOf (instr : Instruction) : Effect := (handler instr).getD .barrier

/-- The instruction passes the assertions. -/
def Accepted (instr : Instruction) : Prop :=
  ∃ e, handler instr = some e ∧ ∀ list, e = .accesses list → (writes list).Nodup

theorem analyze_concat (block : List Instruction) (instr : Instruction) :
    analyze (block ++ [instr]) = analyze block >>= fun s => handler instr >>= perform s block.length := by
  unfold analyze
  rw [List.zipIdx_append, List.foldlM_append]
  simp

/-- One more instruction: its assertions hold, or the analysis stops. -/
theorem Tracks.step (h : Tracks effects s) (instr : Instruction) :
    (Accepted instr → ∃ s', handler instr >>= perform s effects.length = some s' ∧
      Tracks (effects ++ [effectOf instr]) s') ∧
    (¬ Accepted instr → (handler instr >>= perform s effects.length) = none) := by
  unfold Accepted effectOf
  cases hhandler : handler instr with
  | none =>
    refine ⟨?_, fun _ => rfl⟩
    rintro ⟨e, he, -⟩
    cases he
  | some e =>
    cases e with
    | barrier => exact ⟨fun _ => ⟨_, rfl, h.barrier⟩, fun hno => absurd ⟨_, rfl, fun _ => nofun⟩ hno⟩
    | accesses list =>
      have hperform := perform_accesses h.fresh h.read_nodup list
      refine ⟨fun ⟨e, he, hnodup⟩ => ?_, fun hno => hperform.2 fun hnodup => ?_⟩
      · cases he
        obtain ⟨s', hs', hperformed⟩ := hperform.1 (hnodup list rfl)
        exact ⟨s', hs', h.accesses (handler_ne_nil hhandler) hperformed⟩
      · exact hno ⟨_, rfl, by rintro _ ⟨⟩; exact hnodup⟩

/-- The analysis ends exactly if every instruction passes, and the maps then track the block. -/
theorem analyze_spec (block : List Instruction) :
    ((∀ instr ∈ block, Accepted instr) → ∃ s, analyze block = some s ∧ Tracks (block.map effectOf) s) ∧
    ((∃ instr ∈ block, ¬ Accepted instr) → analyze block = none) := by
  induction block using List.reverseRecOn with
  | nil => exact ⟨fun _ => ⟨_, rfl, tracks_new⟩, fun ⟨_, h, _⟩ => nomatch h⟩
  | append_singleton block instr ih =>
    rw [analyze_concat, List.map_append, List.map_singleton]
    by_cases hblock : ∀ instr ∈ block, Accepted instr
    · obtain ⟨s, hs, htracks⟩ := ih.1 hblock
      have hstep := htracks.step instr
      rw [List.length_map] at hstep
      rw [hs]
      refine ⟨fun h => hstep.1 (h instr (by simp)), fun ⟨bad, hbad, hno⟩ => hstep.2 ?_⟩
      rcases List.mem_append.1 hbad with hbad | hbad
      · exact absurd (hblock bad hbad) hno
      · rwa [List.mem_singleton.1 hbad] at hno
    · rw [ih.2 (by push Not at hblock; exact hblock)]
      exact ⟨fun h => absurd (fun i hi => h i (List.mem_append_left _ hi)) hblock, fun _ => rfl⟩

end Egalito.Analysis.ReachingDef
