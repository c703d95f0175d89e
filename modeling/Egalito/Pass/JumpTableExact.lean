import Egalito.Pass.JumpTablePass
/-!
# When the jump tables are exact

The entries of a table are only ever added to, always from slot 0 on. So a table
is exact as long as entries are made for it once, and no later round repairs it.
-/

namespace Egalito.Pass.JumpTablePass

variable {χ : Type} {search : Search χ} {s s' : PassState χ} {t t' : JumpTable χ} {d : Nat} {ds : List Nat} {a : UInt64}

/-! ## The largest count -/

theorem foldr_max_le_iff {l : List Nat} {m : Nat} : l.foldr max 0 ≤ m ↔ ∀ x ∈ l, x ≤ m := by
  induction l with
  | nil => simp
  | cons x l ih => simp [ih]

theorem foldr_max_mem (l : List Nat) : l.foldr max 0 = 0 ∨ l.foldr max 0 ∈ l := by
  induction l with
  | nil => exact .inl rfl
  | cons x l ih =>
    rw [List.foldr_cons]
    rcases Nat.le_total (l.foldr max 0) x with hle | hle
    · rw [Nat.max_eq_left hle]
      exact .inr List.mem_cons_self
    · rw [Nat.max_eq_right hle]
      exact ih.imp_right (List.mem_cons_of_mem x)

theorem le_largest (h : d ∈ givenFor search ds a) : (s.getEntries d).toNat ≤ largest search ds s a :=
  foldr_max_le_iff.1 (Nat.le_refl _) _ (List.mem_map_of_mem h)

theorem largest_eq {m : Nat} (hle : ∀ d ∈ givenFor search ds a, (s.getEntries d).toNat ≤ m)
    (hex : m = 0 ∨ ∃ d ∈ givenFor search ds a, (s.getEntries d).toNat = m) : largest search ds s a = m := by
  apply Nat.le_antisymm
  · refine foldr_max_le_iff.2 fun x hx => ?_
    obtain ⟨d, hd, rfl⟩ := List.mem_map.1 hx
    exact hle d hd
  · rcases hex with rfl | ⟨d, hd, rfl⟩
    · exact Nat.zero_le _
    · exact le_largest hd

theorem largest_lt (hsmall : SmallCounts s) : largest search ds s a < 2 ^ 31 := by
  rcases foldr_max_mem ((givenFor search ds a).map fun d => (s.getEntries d).toNat) with hzero | hmem
  · rw [largest, hzero]
    decide
  · obtain ⟨d, -, hd⟩ := List.mem_map.1 hmem
    have hlt := (hsmall d).2
    rw [largest, ← hd]
    omega

theorem mem_givenFor : d ∈ givenFor search ds a ↔ d ∈ ds ∧ (search.descriptor d).address = a := by
  unfold givenFor
  rw [List.mem_filter, decide_eq_true_iff]

theorem mem_givenFor_concat {d' : Nat} :
    d' ∈ givenFor search (ds ++ [d]) a ↔ d' ∈ givenFor search ds a ∨ d' = d ∧ (search.descriptor d).address = a := by
  rw [mem_givenFor, mem_givenFor, List.mem_append, List.mem_singleton]
  constructor
  · rintro ⟨hd | rfl, ha⟩
    · exact .inl ⟨hd, ha⟩
    · exact .inr ⟨rfl, ha⟩
  · rintro (⟨hd, ha⟩ | ⟨rfl, ha⟩)
    · exact ⟨.inl hd, ha⟩
    · exact ⟨.inr rfl, ha⟩

/-! ## What every round keeps -/

/-- The state of any run. -/
structure Reached (s : PassState χ) : Prop where
  mapped : WellMapped s
  small : SmallCounts s

theorem reached_new (search : Search χ) : Reached (PassState.new search) := by
  refine ⟨⟨fun p t h => ?_, fun a p h => ?_⟩, fun d => ?_⟩
  · simp [PassState.new] at h
  · cases h
  · unfold PassState.getEntries PassState.new
    rcases search.fits d with h | h
    · simp [h]
    · dsimp only
      split
      · decide
      · exact h

theorem Fills.small {u n : Nat} (h : Fills search s u n s') (hsmall : SmallCounts s) : SmallCounts s' := by
  intro d
  rw [h.entries]
  split
  · have hlt := (hsmall u).2
    have hle := h.le
    omega
  · exact hsmall d

theorem Reached.visit (h : Reached s) (search : Search χ) (d : Nat) : Reached (visit search s d) := by
  obtain ⟨hmapped, hround⟩ := visit_round search h.mapped h.small d
  refine ⟨hmapped, ?_⟩
  cases hround with
  | again _ _ _ heq =>
    rw [heq]
    exact h.small
  | quiet _ _ _ _ _ _ _ _ _ hentries => exact fun d' => hentries d' ▸ h.small d'
  | extend _ _ _ _ _ _ _ _ _ _ hfills _ => exact hfills.small h.small
  | create _ _ _ _ _ _ _ hfills _ => exact hfills.small h.small
  | createEmpty _ _ _ _ _ _ _ hentries => exact fun d' => hentries d' ▸ h.small d'

/-- The slots of the entries of a table. -/
def JumpTable.slots (t : JumpTable χ) : List UInt64 := t.children.map JumpTableEntry.address

theorem Puts.at (h : Puts s t s') : s'.tableAt t.address = some t := by rw [h, if_pos rfl]

/-- The entries of a table stay. -/
theorem slots_kept (hround : Round search s d s') (hat : s.tableAt a = some t) :
    ∃ t', s'.tableAt a = some t' ∧ t.slots <+: t'.slots := by
  have hput : ∀ {t₀ t'}, s.tableAt (search.descriptor d).address = some t₀ → Puts s t' s' →
      t'.address = (search.descriptor d).address → t₀.slots <+: t'.slots →
      ∃ t', s'.tableAt a = some t' ∧ t.slots <+: t'.slots := fun {t₀ t'} hat₀ hputs ha hslots => by
    rw [hputs a]
    by_cases haa : a = t'.address
    · rw [if_pos haa]
      rw [haa, ha, hat₀] at hat
      cases hat
      exact ⟨t', rfl, hslots⟩
    · rw [if_neg haa]
      exact ⟨t, hat, List.prefix_rfl⟩
  have hfresh : ∀ {t' : JumpTable χ}, s.tableAt (search.descriptor d).address = none → Puts s t' s' →
      t'.address = (search.descriptor d).address → ∃ t', s'.tableAt a = some t' ∧ t.slots <+: t'.slots :=
      fun {t'} hnone hputs ha => by
    have haa : a ≠ t'.address := fun haa => by rw [haa, ha, hnone] at hat; cases hat
    exact ⟨t, by rw [hputs a, if_neg haa, hat], List.prefix_rfl⟩
  cases hround with
  | again _ _ _ heq => exact ⟨t, heq ▸ hat, List.prefix_rfl⟩
  | quiet t₀ t' hat₀ _ _ hputs ha _ hchildren _ =>
    exact hput hat₀ hputs ha (by rw [JumpTable.slots, JumpTable.slots, hchildren])
  | extend t₀ t' n hat₀ _ _ _ _ hputs ha _ hchildren =>
    exact hput hat₀ hputs ha (by rw [JumpTable.slots, JumpTable.slots, hchildren]; exact List.prefix_append _ _)
  | create t' n hnone _ _ hputs ha _ _ => exact hfresh hnone hputs ha
  | createEmpty t' hnone _ _ hputs ha _ _ => exact hfresh hnone hputs ha

theorem slots_kept_run (search : Search χ) (h : Reached s) (hat : s.tableAt a = some t) (ds : List Nat) :
    ∃ t', (ds.foldl (visit search) s).tableAt a = some t' ∧ t.slots <+: t'.slots := by
  induction ds generalizing s t with
  | nil => exact ⟨t, hat, List.prefix_rfl⟩
  | cons d ds ih =>
    obtain ⟨t₁, hat₁, hslots₁⟩ := slots_kept (visit_round search h.mapped h.small d).2 hat
    obtain ⟨t', hat', hslots'⟩ := ih (h.visit search d) hat₁
    exact ⟨t', hat', hslots₁.trans hslots'⟩

theorem reached_run (search : Search χ) (ds : List Nat) : Reached (makeJumpTable search ds) := by
  unfold makeJumpTable
  suffices ∀ s : PassState χ, Reached s → Reached (ds.foldl (visit search) s) from this _ (reached_new search)
  intro s hs
  induction ds generalizing s with
  | nil => exact hs
  | cons d ds ih => exact ih _ (hs.visit search d)

/-! ## Exact tables -/

variable (search) in
/-- A table whose entries were made at most once, by the descriptor `maker`. -/
structure Made (ds : List Nat) (s : PassState χ) (t : JumpTable χ) (maker : Nat) : Prop where
  current : t.descriptor ∈ givenFor search ds t.address
  given : maker ∈ givenFor search ds t.address
  slots : t.slots = (List.range t.slots.length).map (slot search maker)
  largest : largest search ds s t.address = t.slots.length
  maker : 0 < t.slots.length → s.getEntries maker = t.slots.length ∧ inner search maker 0 ≠ none
  count : s.getEntries t.descriptor = t.slots.length ∨ s.getEntries t.descriptor ≤ 0
  unknown : s.getEntries t.descriptor < 0 → ∀ d ∈ givenFor search ds t.address, s.getEntries d < 0
  first : 0 < s.getEntries t.descriptor → inner search t.descriptor 0 ≠ none

variable (search) in
structure AllMade (ds : List Nat) (s : PassState χ) : Prop where
  reached : Reached s
  given : ∀ a, s.tableAt a = none ↔ ∀ d ∈ ds, (search.descriptor d).address ≠ a
  tables : ∀ a t, s.tableAt a = some t → ∃ maker, Made search ds s t maker

theorem AllMade.exact (h : AllMade search ds s) : Exact search ds s := by
  have hmem : ∀ a, a ∈ s.tables.map JumpTable.address ↔ s.tableAt a ≠ none := fun a => by
    rw [List.mem_map, Option.ne_none_iff_exists']
    exact exists_congr fun t => (tableAt_eq_some h.reached.mapped).symm
  refine ⟨nodup_addresses h.reached.mapped, fun a => ?_, fun t ht => ?_⟩
  · rw [hmem, Ne, h.given]
    push Not
    rfl
  · obtain ⟨maker, hmade⟩ := h.tables t.address t ((tableAt_eq_some h.reached.mapped).2 ⟨ht, rfl⟩)
    refine ⟨maker, hmade.given, ?_⟩
    rw [hmade.largest]
    exact hmade.slots

/-- Tables of other addresses do not notice a round. -/
theorem Made.frame {maker : Nat} (h : Made search ds s t maker) (ha : t.address ≠ (search.descriptor d).address)
    (hentries : ∀ d' ∈ givenFor search ds t.address, s'.getEntries d' = s.getEntries d') :
    Made search (ds ++ [d]) s' t maker := by
  have hgiven : ∀ d', d' ∈ givenFor search (ds ++ [d]) t.address ↔ d' ∈ givenFor search ds t.address := fun d' => by
    rw [mem_givenFor_concat]
    exact or_iff_left fun hd => ha hd.2.symm
  refine ⟨(hgiven _).2 h.current, (hgiven _).2 h.given, h.slots, ?_, fun hpos => ?_, ?_, fun hneg d' hd' => ?_, ?_⟩
  · refine largest_eq (fun d' hd' => ?_) ?_
    · rw [hgiven] at hd'
      rw [hentries d' hd', ← h.largest]
      exact le_largest hd'
    · rcases Nat.eq_zero_or_pos t.slots.length with hzero | hpos
      · exact .inl hzero
      · refine .inr ⟨maker, (hgiven _).2 h.given, ?_⟩
        rw [hentries maker h.given, (h.maker hpos).1, Int.toNat_natCast]
  · rw [hentries maker h.given]
    exact h.maker hpos
  · rw [hentries _ h.current]
    exact h.count
  · rw [hgiven] at hd'
    rw [hentries _ h.current] at hneg
    rw [hentries d' hd']
    exact h.unknown hneg d' hd'
  · rw [hentries _ h.current]
    exact h.first

/-- A descriptor that brings no other count. -/
theorem Made.quiet {maker : Nat} (h : Made search ds s t maker) (ha : t.address = (search.descriptor d).address)
    (hcount : s.getEntries d < 0 ∨ s.getEntries t.descriptor = s.getEntries d)
    (ha' : t'.address = t.address) (hd : t'.descriptor = t.descriptor) (hc : t'.slots = t.slots)
    (hentries : ∀ d', s'.getEntries d' = s.getEntries d') : Made search (ds ++ [d]) s' t' maker := by
  have hgiven : ∀ d' ∈ givenFor search ds t'.address, d' ∈ givenFor search (ds ++ [d]) t'.address := fun d' hd' =>
    mem_givenFor_concat.2 (.inl hd')
  have hcases : ∀ d' ∈ givenFor search (ds ++ [d]) t'.address, d' ∈ givenFor search ds t.address ∨ d' = d :=
    fun d' hd' => (mem_givenFor_concat.1 hd').imp (fun h => ha' ▸ h) And.left
  refine ⟨hgiven _ (by rw [hd, ha']; exact h.current), hgiven _ (by rw [ha']; exact h.given), hc ▸ h.slots, ?_,
    fun hpos => ?_, ?_, fun hneg d' hd' => ?_, ?_⟩
  · rw [hc]
    refine largest_eq (fun d' hd' => ?_) ?_
    · rw [hentries, ← h.largest]
      rcases hcases d' hd' with hd' | rfl
      · exact le_largest hd'
      · have hle := le_largest (s := s) h.current
        rcases hcount with hneg | heq
        · omega
        · rw [← heq]
          exact hle
    · rcases Nat.eq_zero_or_pos t.slots.length with hzero | hpos
      · exact .inl hzero
      · refine .inr ⟨maker, hgiven _ (by rw [ha']; exact h.given), ?_⟩
        rw [hentries, (h.maker hpos).1, Int.toNat_natCast]
  · rw [hc] at hpos ⊢
    rw [hentries]
    exact h.maker hpos
  · rw [hc, hd, hentries]
    exact h.count
  · rw [hd, hentries] at hneg
    rw [hentries]
    rcases hcases d' hd' with hd' | rfl
    · exact h.unknown hneg d' hd'
    · rcases hcount with hneg' | heq
      · exact hneg'
      · exact heq ▸ hneg
  · rw [hd, hentries]
    exact h.first

/-- Entries for a table that had none; no count but that of `d` is known above 0. -/
theorem made_of_fills {n : Nat} (ha : t'.address = (search.descriptor d).address) (hd : t'.descriptor = d)
    (hslots : t'.slots = (List.range n).map (slot search d)) (hfills : Fills search s d n s')
    (hothers : ∀ d' ∈ givenFor search ds t'.address, s.getEntries d' ≤ 0) : Made search (ds ++ [d]) s' t' d := by
  have hlength : t'.slots.length = n := by rw [hslots, List.length_map, List.length_range]
  have hself : s'.getEntries d = n := by rw [hfills.entries, if_pos rfl]
  have hgiven : d ∈ givenFor search (ds ++ [d]) t'.address := mem_givenFor_concat.2 (.inr ⟨rfl, ha.symm⟩)
  have hfirst : 0 < n → inner search d 0 ≠ none := fun hpos hnone => by
    have hle := hfills.le
    have hzero := (hfills.first (by omega)).2 hnone
    omega
  refine ⟨by rwa [hd], hgiven, by rw [hlength]; exact hslots, ?_, fun hpos => ?_, .inl ?_, fun hneg => ?_, fun hpos => ?_⟩
  · rw [hlength]
    refine largest_eq (fun d' hd' => ?_) (.inr ⟨d, hgiven, by rw [hself, Int.toNat_natCast]⟩)
    rw [hfills.entries]
    split
    · rw [Int.toNat_natCast]
    case isFalse hne =>
      have hle := hothers d' ((mem_givenFor_concat.1 hd').resolve_right fun h => hne h.1)
      omega
  · rw [hlength] at hpos ⊢
    exact ⟨hself, hfirst hpos⟩
  · rw [hd, hlength, hself]
  · rw [hd, hself] at hneg
    omega
  · rw [hd, hself] at hpos
    rw [hd]
    exact hfirst (by omega)

theorem AllMade.put (h : AllMade search ds s) (hreached : Reached s') (hputs : Puts s t' s')
    (ha : t'.address = (search.descriptor d).address) (hmade : ∃ maker, Made search (ds ++ [d]) s' t' maker)
    (hentries : ∀ d', (search.descriptor d').address ≠ (search.descriptor d).address →
      s'.getEntries d' = s.getEntries d') : AllMade search (ds ++ [d]) s' := by
  refine ⟨hreached, fun a => ?_, fun a t hat => ?_⟩
  · rw [hputs a, ha]
    by_cases haa : a = (search.descriptor d).address
    · rw [if_pos haa]
      exact ⟨fun hnone => (nomatch hnone), fun hall => absurd haa.symm (hall d (by simp))⟩
    · rw [if_neg haa, h.given]
      simp [or_imp, forall_and, Ne.symm haa]
  · rw [hputs a] at hat
    by_cases haa : a = t'.address
    · rw [if_pos haa] at hat
      cases hat
      exact hmade
    · rw [if_neg haa] at hat
      have hta : t.address = a := ((tableAt_eq_some h.reached.mapped).1 hat).2
      have hne : t.address ≠ (search.descriptor d).address := by rw [hta, ← ha]; exact haa
      obtain ⟨maker, hold⟩ := h.tables a t hat
      refine ⟨maker, hold.frame hne fun d' hd' => hentries d' ?_⟩
      rw [(mem_givenFor.1 hd').2]
      exact hne

/-- Where the entries of a table are made again, slot 0 comes twice. -/
def Repeats (search : Search χ) (t : JumpTable χ) : Prop :=
  ∃ m u, 0 < m ∧ m < 2 ^ 31 ∧ (search.descriptor u).address = t.address ∧ t.slots[m]? = some (slot search u 0)

theorem clear_iff : Clear search s d ↔ ∀ t, s.tableAt (search.descriptor d).address = some t → t.descriptor ≠ d →
    0 ≤ s.getEntries t.descriptor → 0 ≤ s.getEntries d → s.getEntries t.descriptor ≠ s.getEntries d →
    t.children = [] ∨
      inner search (if s.getEntries d > s.getEntries t.descriptor then d else t.descriptor) 0 = none := by
  unfold Clear PassState.tableAt
  constructor
  · intro h t hat
    obtain ⟨p, hp, ht⟩ := Option.bind_eq_some_iff.1 hat
    exact h p t hp ht
  · intro h p t hp ht
    exact h t (Option.bind_eq_some_iff.2 ⟨p, hp, ht⟩)

theorem slots_eq_nil (h : t.slots.length = 0) : t.children = [] :=
  List.map_eq_nil_iff.1 (List.eq_nil_of_length_eq_zero h)

/-- The descriptor that gets the entries is one for this address. -/
theorem Made.address_used {maker : Nat} (h : Made search ds s t maker) (ha : t.address = (search.descriptor d).address) :
    (search.descriptor (if s.getEntries d > s.getEntries t.descriptor then d else t.descriptor)).address =
      (search.descriptor d).address := by
  split
  · rfl
  · rw [(mem_givenFor.1 h.current).2, ha]

/-- Another count, where the table has no entries or gets none. -/
theorem Made.extend {maker n : Nat} (h : Made search ds s t maker) (ha : t.address = (search.descriptor d).address)
    (hknown : 0 ≤ s.getEntries d) (hne : s.getEntries t.descriptor ≠ s.getEntries d)
    (hclear : 0 ≤ s.getEntries t.descriptor → t.children = [] ∨
      inner search (if s.getEntries d > s.getEntries t.descriptor then d else t.descriptor) 0 = none)
    (ha' : t'.address = t.address)
    (hdescriptor : t'.descriptor = if s.getEntries d > s.getEntries t.descriptor then d else t.descriptor)
    (hfills : Fills search s t'.descriptor n s')
    (hslots : t'.slots = t.slots ++ (List.range n).map (slot search t'.descriptor)) :
    ∃ maker, Made search (ds ++ [d]) s' t' maker := by
  by_cases hempty : t.slots.length = 0
  · -- nothing was made: no count is above 0, and `d` has the larger one
    have hothers : ∀ d' ∈ givenFor search ds t'.address, s.getEntries d' ≤ 0 := fun d' hd' => by
      have hle : (s.getEntries d').toNat ≤ _ := le_largest (ha' ▸ hd')
      rw [h.largest, hempty] at hle
      omega
    have hother := hothers t.descriptor (by rw [ha']; exact h.current)
    rw [if_pos (by omega)] at hdescriptor
    rw [hdescriptor] at hfills hslots
    rw [List.eq_nil_of_length_eq_zero hempty, List.nil_append] at hslots
    exact ⟨d, made_of_fills (ha'.trans ha) hdescriptor hslots hfills hothers⟩
  · have hpos : 0 < t.slots.length := Nat.pos_of_ne_zero hempty
    have hother : 0 ≤ s.getEntries t.descriptor := by
      by_contra hneg
      have hmaker := h.unknown (by omega) maker h.given
      rw [(h.maker hpos).1] at hmaker
      omega
    have hnone := (hclear hother).resolve_left fun hnil => hempty (by rw [JumpTable.slots, hnil]; rfl)
    -- the table's own descriptor has a target for slot 0, so it is `d` that has none
    have hlarger : s.getEntries d > s.getEntries t.descriptor := by
      by_contra hle
      rw [if_neg hle] at hnone
      exact h.first (by omega) hnone
    rw [if_pos hlarger] at hnone hdescriptor
    rw [hdescriptor] at hfills hslots
    obtain rfl : n = 0 := (hfills.first (by omega)).2 hnone
    rw [List.range_zero, List.map_nil, List.append_nil] at hslots
    have hmaker : maker ≠ d := fun heq => (h.maker hpos).2 (heq ▸ hnone)
    have hself : s'.getEntries d = 0 := by rw [hfills.entries, if_pos rfl]; rfl
    have hrest : ∀ d', d' ≠ d → s'.getEntries d' = s.getEntries d' := fun d' hd' => by rw [hfills.entries, if_neg hd']
    have hgiven : ∀ d' ∈ givenFor search ds t.address, d' ∈ givenFor search (ds ++ [d]) t'.address := fun d' hd' =>
      mem_givenFor_concat.2 (.inl (ha' ▸ hd'))
    refine ⟨maker, ?_, hgiven _ h.given, by rw [hslots]; exact h.slots, ?_, fun _ => ?_, .inr ?_, fun hneg => ?_,
      fun hpos => ?_⟩
    · rw [hdescriptor]
      exact mem_givenFor_concat.2 (.inr ⟨rfl, by rw [ha', ha]⟩)
    · rw [hslots]
      refine largest_eq (fun d' hd' => ?_) (.inr ⟨maker, hgiven _ h.given, ?_⟩)
      · rw [hfills.entries]
        split
        · simp
        case isFalse hd'' =>
          rw [← h.largest]
          exact le_largest (ha' ▸ (mem_givenFor_concat.1 hd').resolve_right fun h => hd'' h.1)
      · rw [hrest maker hmaker, (h.maker hpos).1, Int.toNat_natCast]
    · rw [hslots, hrest maker hmaker]
      exact h.maker hpos
    · rw [hdescriptor, hself]
    · rw [hdescriptor, hself] at hneg
      exact absurd hneg (lt_irrefl _)
    · rw [hdescriptor, hself] at hpos
      exact absurd hpos (lt_irrefl _)

theorem AllMade.visit (h : AllMade search ds s) (hclear : Clear search s d) :
    AllMade search (ds ++ [d]) (visit search s d) := by
  have hreached := h.reached.visit search d
  obtain ⟨-, hround⟩ := visit_round search h.reached.mapped h.reached.small d
  rw [clear_iff] at hclear
  have haddress : ∀ {t}, s.tableAt (search.descriptor d).address = some t → t.address = (search.descriptor d).address :=
    fun hat => ((tableAt_eq_some h.reached.mapped).1 hat).2
  generalize JumpTablePass.visit search s d = s' at hreached hround
  cases hround with
  | again t hat hsame heq =>
    obtain ⟨maker, hmade⟩ := h.tables _ t hat
    have hputs : Puts s t s := fun a => by
      rw [haddress hat]
      split
      case isTrue ha => rw [ha, hat]
      case isFalse => rfl
    subst heq
    refine h.put hreached hputs (haddress hat) ⟨maker, ?_⟩ fun _ _ => rfl
    exact hmade.quiet (haddress hat) (.inr (by rw [hsame])) rfl rfl rfl fun _ => rfl
  | quiet t t' hat _ hcount hputs ha hd hc hentries =>
    obtain ⟨maker, hmade⟩ := h.tables _ t hat
    refine h.put hreached hputs ha ⟨maker, ?_⟩ fun d' _ => hentries d'
    exact hmade.quiet (haddress hat) hcount (ha.trans (haddress hat).symm) hd (by rw [JumpTable.slots, hc]; rfl) hentries
  | extend t t' n hat hsame hknown hne hd hputs ha hfills hslots =>
    obtain ⟨maker, hmade⟩ := h.tables _ t hat
    refine h.put hreached hputs ha ?_ fun d' hd' => ?_
    · exact hmade.extend (haddress hat) hknown hne (fun hother => hclear t hat hsame hother hknown hne)
        (ha.trans (haddress hat).symm) hd hfills hslots
    · rw [hfills.entries, if_neg fun heq => hd' ?_]
      rw [heq, hd]
      exact hmade.address_used (haddress hat)
  | create t' n hnone hknown hd hputs ha hfills hslots =>
    refine h.put hreached hputs ha ⟨d, made_of_fills ha hd hslots hfills fun d' hd' => ?_⟩ fun d' hd' => ?_
    · rw [mem_givenFor, ha] at hd'
      exact absurd hd'.2 ((h.given _).1 hnone d' hd'.1)
    · rw [hfills.entries, if_neg fun heq => hd' (by rw [heq])]
  | createEmpty t' hnone hneg hd hputs ha hc hentries =>
    refine h.put hreached hputs ha ⟨d, ?_⟩ fun d' _ => hentries d'
    have hslots : t'.slots = [] := by rw [JumpTable.slots, hc]; rfl
    have honly : ∀ d' ∈ givenFor search (ds ++ [d]) t'.address, d' = d := fun d' hd' => by
      rw [mem_givenFor_concat, mem_givenFor, ha] at hd'
      rcases hd' with ⟨hd', ha'⟩ | ⟨rfl, -⟩
      · exact absurd ha' ((h.given _).1 hnone d' hd')
      · rfl
    have hgiven : d ∈ givenFor search (ds ++ [d]) t'.address := mem_givenFor_concat.2 (.inr ⟨rfl, ha.symm⟩)
    refine ⟨by rwa [hd], hgiven, by rw [hslots]; rfl, ?_, fun hpos => ?_, .inr ?_, fun _ d' hd' => ?_, fun hpos => ?_⟩
    · rw [hslots]
      refine largest_eq (fun d' hd' => ?_) (.inl rfl)
      rw [honly d' hd', hentries, List.length_nil]
      omega
    · rw [hslots] at hpos
      exact absurd hpos (Nat.lt_irrefl _)
    · rw [hd, hentries]
      exact hneg.le
    · rw [honly d' hd', hentries]
      exact hneg
    · rw [hd, hentries] at hpos
      omega

/-- A round that is not clear makes slot 0 a second time. -/
theorem AllMade.repeats (h : AllMade search ds s) (hclear : ¬ Clear search s d) :
    ∃ t, (JumpTablePass.visit search s d).tableAt (search.descriptor d).address = some t ∧ Repeats search t := by
  obtain ⟨-, hround⟩ := visit_round search h.reached.mapped h.reached.small d
  rw [clear_iff] at hclear
  push Not at hclear
  obtain ⟨t, hat, hsame, hother, hknown, hne, hchildren, hinner⟩ := hclear
  obtain ⟨maker, hmade⟩ := h.tables _ t hat
  have haddress := ((tableAt_eq_some h.reached.mapped).1 hat).2
  generalize JumpTablePass.visit search s d = s' at hround
  cases hround with
  | again t₁ hat₁ hsame₁ _ =>
    cases hat.symm.trans hat₁
    exact absurd hsame₁ hsame
  | quiet t₁ t' hat₁ _ hcount _ _ _ _ _ =>
    cases hat.symm.trans hat₁
    rcases hcount with hneg | heq
    · omega
    · exact absurd heq hne
  | create t' n hnone _ _ _ _ _ _ => cases hat.symm.trans hnone
  | createEmpty t' hnone _ _ _ _ _ _ => cases hat.symm.trans hnone
  | extend t₁ t' n hat₁ _ _ _ hd hputs ha hfills hslots =>
    cases hat.symm.trans hat₁
    rw [← hd] at hinner
    have hpos : 0 < s.getEntries t'.descriptor := by
      rw [hd]
      split <;> omega
    have hn : n ≠ 0 := fun hzero => hinner ((hfills.first hpos).1 hzero)
    obtain ⟨n, rfl⟩ := Nat.exists_eq_succ_of_ne_zero hn
    refine ⟨t', ha ▸ hputs.at, t.slots.length, t'.descriptor, ?_, ?_, ?_, ?_⟩
    · refine Nat.pos_of_ne_zero fun hzero => hchildren (slots_eq_nil hzero)
    · rw [← hmade.largest]
      exact largest_lt h.reached.small
    · rw [hd, ha]
      exact hmade.address_used haddress
    · change t'.slots = t.slots ++ _ at hslots
      rw [hslots, List.getElem?_append_right (Nat.le_refl _), Nat.sub_self, List.range_succ_eq_map]
      rfl

/-- No exact table has slot 0 twice. -/
theorem not_exact_of_repeats (hmapped : WellMapped s) (hat : s.tableAt a = some t') (hrepeats : Repeats search t)
    (ha : t.address = a) (hslots : t.slots <+: t'.slots) : ¬ Exact search ds s := by
  intro hexact
  obtain ⟨m, u, hm, hm', hu, hslot⟩ := hrepeats
  obtain ⟨ht', ha'⟩ := (tableAt_eq_some hmapped).1 hat
  obtain ⟨d', hd', hchildren⟩ := hexact.entries t' ht'
  have hget : t'.slots[m]? = some (slot search u 0) := by
    obtain ⟨rest, hrest⟩ := hslots
    rw [← hrest, List.getElem?_append_left (List.getElem?_eq_some_iff.1 hslot).1, hslot]
  change t'.slots = _ at hchildren
  rw [hchildren, List.getElem?_map] at hget
  obtain ⟨i, hi, hslot'⟩ := Option.map_eq_some_iff.1 hget
  obtain rfl : i = m := by
    obtain ⟨hlt, hi⟩ := List.getElem?_eq_some_iff.1 hi
    rw [List.getElem_range] at hi
    exact hi.symm
  have hscale := (search.descriptor d').scale_pos
  have hscale' := (search.descriptor d').scale_le
  unfold slot at hslot'
  rw [(mem_givenFor.1 hd').2, hu, ha, ha', Nat.zero_mul] at hslot'
  have hzero := congrArg UInt64.toNat ((UInt64.add_right_inj _).1 hslot')
  have hpos : 0 < i * (search.descriptor d').scale := Nat.mul_pos hm hscale
  have hlt : i * (search.descriptor d').scale < 2 ^ 64 := by
    have hle := Nat.mul_le_mul hm'.le hscale'
    omega
  rw [UInt64.toNat_ofNat_of_lt' hlt] at hzero
  exact absurd hzero hpos.ne'

/-! ## All rounds -/

variable (search) in
/-- In every state of the run the next descriptor is clear. -/
def ClearRun (ds : List Nat) : Prop :=
  ∀ front d back, ds = front ++ d :: back → Clear search (makeJumpTable search front) d

theorem makeJumpTable_concat (search : Search χ) (ds : List Nat) (d : Nat) :
    makeJumpTable search (ds ++ [d]) = visit search (makeJumpTable search ds) d := by
  unfold makeJumpTable
  rw [List.foldl_append]
  rfl

theorem clearRun_concat : ClearRun search (ds ++ [d]) ↔ ClearRun search ds ∧ Clear search (makeJumpTable search ds) d := by
  constructor
  · intro h
    exact ⟨fun front d' back hds => h front d' (back ++ [d]) (by rw [hds, List.append_assoc]; rfl), h ds d [] rfl⟩
  · rintro ⟨h, hlast⟩ front d' back hds
    rcases List.eq_nil_or_concat back with rfl | ⟨back, x, rfl⟩
    · obtain ⟨rfl, hd⟩ := List.append_inj' hds rfl
      cases hd
      exact hlast
    · have hds' : ds ++ [d] = (front ++ d' :: back) ++ [x] := by simpa using hds
      exact h front d' back (List.append_inj' hds' rfl).1

theorem allMade_of_clearRun (h : ClearRun search ds) : AllMade search ds (makeJumpTable search ds) := by
  induction ds using List.reverseRecOn with
  | nil =>
    refine ⟨reached_new search, fun a => ?_, fun a t hat => ?_⟩
    · exact ⟨fun _ d hd => (nomatch hd), fun _ => rfl⟩
    · cases hat
  | append_singleton ds d ih =>
    obtain ⟨hrun, hclear⟩ := clearRun_concat.1 h
    rw [makeJumpTable_concat]
    exact (ih hrun).visit hclear

theorem clearRun_of_exact (hexact : Exact search ds (makeJumpTable search ds)) {front back : List Nat}
    (hds : ds = front ++ back) : ClearRun search front := by
  induction front using List.reverseRecOn generalizing back with
  | nil =>
    intro front d back h
    simp at h
  | append_singleton front d ih =>
    have hrun := ih (show ds = front ++ d :: back by rw [hds, List.append_assoc]; rfl)
    refine clearRun_concat.2 ⟨hrun, ?_⟩
    by_contra hclear
    -- the table that repeats its first slot is never repaired
    obtain ⟨t, hat, hrepeats⟩ := (allMade_of_clearRun hrun).repeats hclear
    have hreached := (reached_run search front).visit search d
    obtain ⟨t', hat', hslots⟩ := slots_kept_run search hreached hat back
    have hends : makeJumpTable search ds = back.foldl (visit search) (visit search (makeJumpTable search front) d) := by
      rw [hds, makeJumpTable, List.foldl_append, ← makeJumpTable, makeJumpTable_concat]
    rw [← hends] at hat'
    exact not_exact_of_repeats (reached_run search ds).mapped hat' hrepeats
      ((tableAt_eq_some hreached.mapped).1 hat).2 hslots hexact

/-- Two jumps through one table of bytes, with one slot and with two. -/
def sampleSearch : Search Unit where
  descriptor d := ⟨d, 0x2000, 0x1000, 1, 1, by decide, by decide⟩
  bound d := if d = 0 then 0 else 1
  byte _ _ := 0
  findInnermost _ := some ()
  fits d := by
    split
    · exact .inr (by decide)
    · exact .inr (by decide)

end Egalito.Pass.JumpTablePass
