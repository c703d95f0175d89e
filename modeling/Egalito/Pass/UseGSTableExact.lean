import Egalito.Pass.UseGSTableRuns
import Mathlib
/-!
# The conversion of a function

Wherever the conversion is in its lists, the code consists of the old
instructions, and of what stands for those that it has gone through. From that,
each rewritten instruction is reached in its new place as before.
-/

namespace Egalito.UseGSTable

open Lib X86 Retpoline Chunk

variable {χ I : Type} {b b' : Body χ I} {P Q : List (List (Instruction χ I))} {A B l₁ l₂ : List (Instruction χ I)} {p n : Nat}
  {s : Semantic χ I}

/-! ## Edits of a block -/

theorem map_edit_away {f : Instruction χ I → List (Instruction χ I)} (hP : ∀ y ∈ P.flatten, y.1 ≠ p) : P.map (edit p f) = P := by
  induction P with
  | nil => rfl
  | cons block P ih =>
    rw [List.flatten_cons] at hP
    rw [List.map_cons, edit_away fun y hy => hP y (List.mem_append_left _ hy), ih fun y hy => hP y (List.mem_append_right _ hy)]

theorem map_edit_point {f : Instruction χ I → List (Instruction χ I)} (h : ∀ y ∈ P.flatten ++ (A ++ Q.flatten), y.1 ≠ p)
    (hl : ∀ y ∈ l₁ ++ l₂, y.1 ≠ p) :
    (P ++ (A ++ (l₁ ++ (p, s) :: l₂)) :: Q).map (edit p f) = P ++ (A ++ (l₁ ++ (f (p, s) ++ l₂))) :: Q := by
  simp only [List.forall_mem_append] at h hl
  rw [List.map_append, List.map_cons, map_edit_away h.1, map_edit_away h.2.2, ← List.append_assoc, edit_point, List.append_assoc]
  · exact List.forall_mem_append.2 ⟨h.2.1, hl.1⟩
  · exact hl.2

/-- The new instructions come behind the point in their order. -/
theorem insertChain_blocks {news : List (Instruction χ I)} (h : ∀ y ∈ P.flatten ++ (A ++ Q.flatten), ∀ q ∈ p :: news.map (·.1), y.1 ≠ q)
    (hl : ∀ y ∈ l₁ ++ l₂, ∀ q ∈ p :: news.map (·.1), y.1 ≠ q) (hnodup : (p :: news.map (·.1)).Nodup) :
    ({ b with blocks := P ++ (A ++ (l₁ ++ (p, s) :: l₂)) :: Q } : Body χ I).insertChain p news =
      { b with blocks := P ++ (A ++ (l₁ ++ (p, s) :: (news ++ l₂))) :: Q } := by
  induction news generalizing l₁ p s with
  | nil => rfl
  | cons new news ih =>
    obtain ⟨q, s'⟩ := new
    rw [List.map_cons, List.nodup_cons] at hnodup
    have hedit := @map_edit_point χ I P Q A l₁ l₂ p s (fun x => [x, (q, s')]) (fun y hy => h y hy p List.mem_cons_self)
      (fun y hy => hl y hy p List.mem_cons_self)
    rw [Body.insertChain, Body.insertAfter, Body.edit, hedit]
    have hl' : ∀ y ∈ (l₁ ++ [(p, s)]) ++ l₂, ∀ r ∈ q :: news.map (·.1), y.1 ≠ r := by
      intro y hy r hr
      simp only [List.append_assoc, List.mem_append, List.mem_singleton] at hy
      rcases hy with hy | rfl | hy
      · exact hl y (List.mem_append_left _ hy) r (List.mem_cons_of_mem _ hr)
      · rintro rfl
        exact hnodup.1 hr
      · exact hl y (List.mem_append_right _ hy) r (List.mem_cons_of_mem _ hr)
    have hrest := @ih (l₁ ++ [(p, s)]) q s' (fun y hy r hr => h y hy r (List.mem_cons_of_mem _ hr)) hl' hnodup.2
    simpa using hrest

/-- The new instructions are those of a sequence. -/
theorem replace_blocks {jump first : Semantic χ I} {rest : List (Semantic χ I)}
    (h : ∀ y ∈ P.flatten ++ (A ++ Q.flatten), y.1 ≠ p ∧ y.1 < b.nextId) (hp : p < b.nextId) :
    ({ b with blocks := P ++ (A ++ [(p, s)]) :: Q } : Body χ I).replace p jump first rest =
      { b with blocks := P ++ (A ++ sequence b.nextId p first rest jump) :: Q, nextId := b.nextId + 1 + rest.length } := by
  have hedit : ∀ (s : Semantic χ I) f, (P ++ (A ++ [(p, s)]) :: Q).map (edit p f) = P ++ (A ++ (f (p, s) ++ [])) :: Q :=
    fun s f => @map_edit_point χ I P Q A [] [] p s f (fun y hy => (h y hy).1) (fun _ hy => nomatch hy)
  have hnews : ((List.range' (b.nextId + 1) rest.length).zip rest).map (·.1) = List.range' (b.nextId + 1) rest.length := by
    rw [List.map_fst_zip]
    simp
  have hrange : ∀ q ∈ p :: List.range' (b.nextId + 1) rest.length, q = p ∨ b.nextId < q := by
    intro q hq
    rw [List.mem_cons, List.mem_range'_1] at hq
    exact hq.imp_right fun h => h.1
  rw [Body.replace, Body.insertBeforeJumpTo, Body.setSemantic, Body.edit, Body.edit, hedit]
  dsimp only
  rw [List.append_nil, hedit]
  refine (@insertChain_blocks χ I { b with nextId := b.nextId + 1 + rest.length } P Q A [] [(b.nextId, jump)] p first _ ?_ ?_ ?_).trans ?_
  · intro y hy q hq
    rw [hnews] at hq
    rcases hrange q hq with rfl | hq
    · exact (h y hy).1
    · exact ((h y hy).2.trans hq).ne
  · intro y hy q hq
    rw [hnews] at hq
    rw [List.nil_append, List.mem_singleton] at hy
    subst hy
    rcases hrange q hq with rfl | hq
    · exact hp.ne'
    · exact hq.ne
  · rw [hnews, List.nodup_cons]
    refine ⟨fun hmem => ?_, List.nodup_range'⟩
    rw [List.mem_range'_1] at hmem
    omega
  · rfl

/-! ## Blocks -/

theorem any_eq_false {block : List (Instruction χ I)} (h : ∀ y ∈ block, y.1 ≠ p) : block.any (·.1 = p) = false := by
  simpa using h

theorem nextFirst_fill (hP : ∀ y ∈ P.flatten, y.1 ≠ p) :
    nextFirst p (P ++ (A ++ [(p, s)]) :: Q) = Q.head?.bind fun next => next.head?.map (·.1) := by
  induction P with
  | nil =>
    cases Q with
    | nil => rfl
    | cons next Q => simp [nextFirst]
  | cons block P ih =>
    rw [List.flatten_cons, List.forall_mem_append] at hP
    rw [← ih hP.2]
    cases P with
    | nil => rw [List.cons_append, List.nil_append, nextFirst, any_eq_false hP.1, if_neg (by decide)]
    | cons block' P =>
      rw [List.cons_append, List.cons_append, nextFirst, any_eq_false hP.1, if_neg (by decide)]

theorem splitLast_fill {front last : Instruction χ I} (h : ∀ y ∈ P.flatten ++ Q.flatten, y.1 ≠ p) :
    splitLast p front (P ++ (A ++ [(p, s), last]) :: Q) = P ++ (A ++ [(p, s)]) :: [front, last] :: Q := by
  have haway : ∀ R : List (List (Instruction χ I)), (∀ y ∈ R.flatten, y.1 ≠ p) → splitLast p front R = R := by
    intro R hR
    induction R with
    | nil => rfl
    | cons block R ih =>
      rw [List.flatten_cons, List.forall_mem_append] at hR
      rw [splitLast, List.flatMap_cons, any_eq_false hR.1, ← splitLast, ih hR.2]
      rfl
  rw [List.forall_mem_append] at h
  rw [splitLast, List.flatMap_append, List.flatMap_cons, ← splitLast, ← splitLast, haway P h.1, haway Q h.2, if_pos (by simp)]
  simp

/-- An instruction of a list of the pass is at the end of its block. -/
theorem Shaped.locate {blocks : List (List (Instruction χ I))} {x : Instruction χ I} (hshaped : Shaped blocks)
    (hcode : blocks.flatten = A ++ x :: B) (hx : x.2.workList ≠ none) :
    ∃ P A₀ Q, blocks = P ++ (A₀ ++ [x]) :: Q ∧ A = P.flatten ++ A₀ ∧ B = Q.flatten := by
  induction blocks generalizing A with
  | nil => simp at hcode
  | cons block blocks ih =>
    have hrest : Shaped blocks := fun b hb => hshaped b (List.mem_cons_of_mem _ hb)
    rw [List.flatten_cons, List.append_eq_append_iff] at hcode
    rcases hcode with ⟨A', rfl, hcode⟩ | ⟨C, rfl, hcode⟩
    · obtain ⟨P, A₀, Q, rfl, rfl, hB⟩ := ih hrest hcode
      exact ⟨block :: P, A₀, Q, rfl, by simp, hB⟩
    · cases C with
      | nil =>
        obtain ⟨P, A₀, Q, rfl, hA, hB⟩ := @ih [] hrest hcode.symm
        exact ⟨(A ++ []) :: P, A₀, Q, rfl, by simp [← hA], hB⟩
      | cons y C =>
        rw [List.cons_append, List.cons.injEq] at hcode
        obtain ⟨rfl, rfl⟩ := hcode
        cases C with
        | nil => exact ⟨[], A, blocks, rfl, rfl, rfl⟩
        | cons z C =>
          -- something comes behind it in its block
          refine absurd ((hshaped _ List.mem_cons_self).2 x ?_) hx
          rw [List.dropLast_append_of_ne_nil (by simp), List.dropLast_cons_of_ne_nil (by simp)]
          simp

theorem Shaped.fill {piece : List (Instruction χ I)} {R : List (List (Instruction χ I))} {x : Instruction χ I}
    (h : Shaped (P ++ (A ++ [x]) :: Q)) (hpiece : piece ≠ []) (hnone : ∀ y ∈ piece, y.2.workList = none) (hR : Shaped R) :
    Shaped (P ++ (A ++ piece) :: (R ++ Q)) := by
  have hA := (h (A ++ [x]) (by simp)).2
  rw [List.dropLast_concat] at hA
  intro block hblock
  simp only [List.mem_append, List.mem_cons] at hblock
  rcases hblock with hblock | rfl | hblock | hblock
  · exact h block (by simp [hblock])
  · refine ⟨by simp [hpiece], fun y hy => ?_⟩
    rcases List.mem_append.1 (List.mem_of_mem_dropLast hy) with hy | hy
    · exact hA y hy
    · exact hnone y hy
  · exact hR block hblock
  · exact h block (by simp [hblock])

/-! ## The table -/

section Table

variable [DecidableEq χ] {t t' : GSTable χ} {x : χ}

/-- The entries of a table stay. -/
def Grows (t t' : GSTable χ) : Prop := ∀ x e, t.getEntryFor x = some e → t'.getEntryFor x = some e

theorem Grows.refl (t : GSTable χ) : Grows t t := fun _ _ h => h

theorem Grows.trans {t'' : GSTable χ} (h : Grows t t') (h' : Grows t' t'') : Grows t t'' := fun x e he => h' x e (h x e he)

theorem grows_make (t : GSTable χ) (x : χ) : Grows t (t.makeJITEntryFor x).2 :=
  fun _ _ h => GSTable.getEntryFor_of_makeEntryFor h

theorem slotOffset_of_grows (h : Grows (t.makeJITEntryFor x).2 t') : slotOffset t' x = (t.makeJITEntryFor x).1.getOffset := by
  rw [slotOffset, h x _ (GSTable.getEntryFor_makeEntryFor t x)]
  rfl

end Table

/-! ## One rewriting -/

/-- What stands for an instruction is in its place, with new objects. -/
structure Replaced (b b' : Body χ I) (front back : List (Instruction χ I)) (x : Instruction χ I) (piece : List (Instruction χ I)) :
    Prop where
  code : b'.code = front ++ (piece ++ back)
  shaped : Shaped b'.blocks
  labelled : Labelled (fun l => b.nextId ≤ l ∧ l < b'.nextId) x piece
  nodup : (piece.tail.map (·.1)).Nodup
  nextId : b.nextId ≤ b'.nextId

section Rewrite

variable {x : Instruction χ I} (hshaped : Shaped b.blocks) (hblocks : b.blocks = P ++ (A ++ [x]) :: Q)
  (h : ∀ y ∈ P.flatten ++ (A ++ Q.flatten), y.1 ≠ x.1 ∧ y.1 < b.nextId) (hp : x.1 < b.nextId)

include hshaped hblocks h hp

theorem replaced_sequence (table : GSTable χ) {jump first : Semantic χ I} {rest : List (Semantic χ I)}
    (hnone : ∀ s ∈ first :: jump :: rest, s.workList = none) :
    Replaced b ({ b with gsTable := table }.replace x.1 jump first rest) (P.flatten ++ A) Q.flatten x
      (sequence b.nextId x.1 first rest jump) ∧
    ({ b with gsTable := table }.replace x.1 jump first rest).gsTable = table := by
  obtain ⟨p, s⟩ := x
  have hreplace := @replace_blocks χ I { b with gsTable := table } P Q A p s jump first rest h hp
  rw [← hblocks] at hreplace
  rw [hreplace]
  have hlabels : ((List.range' (b.nextId + 1) rest.length).zip rest ++ [(b.nextId, jump)]).map (·.1) =
      List.range' (b.nextId + 1) rest.length ++ [b.nextId] := by
    rw [List.map_append, List.map_fst_zip]
    · rfl
    · simp
  refine ⟨⟨?_, ?_, ⟨rfl, fun y hy => ?_⟩, ?_, ?_⟩, rfl⟩
  · simp [Body.code]
  · rw [hblocks] at hshaped
    refine hshaped.fill (R := []) (by simp [sequence]) (fun y hy => hnone y.2 ?_) (by simp [Shaped])
    simp only [sequence, List.mem_cons, List.mem_append, List.not_mem_nil, or_false] at hy ⊢
    rcases hy with rfl | hy | rfl
    · exact .inl rfl
    · exact .inr (.inr (List.of_mem_zip hy).2)
    · exact .inr (.inl rfl)
  · have hy := List.mem_map_of_mem (f := (·.1)) hy
    rw [sequence, List.tail_cons, hlabels, List.mem_append, List.mem_range'_1, List.mem_singleton] at hy
    change b.nextId ≤ y.1 ∧ y.1 < b.nextId + 1 + rest.length
    omega
  · rw [sequence, List.tail_cons, hlabels, List.nodup_append]
    refine ⟨List.nodup_range', by simp, fun q hq r hr => ?_⟩
    rw [List.mem_range'_1] at hq
    rw [List.mem_singleton] at hr
    omega
  · change b.nextId ≤ b.nextId + 1 + rest.length
    omega

variable [DecidableEq χ] {self target : χ} {t : Transfer χ}

theorem rewriteTailRecursion_replaced {c : Condition}
    (hrw : rewriteTailRecursion b x.1 (.conditional c) target = some b') :
    b'.gsTable = (b.gsTable.makeJITEntryFor target).2 ∧ ∃ next, Q.flatten.head?.map (·.1) = some next ∧
      Replaced b b' (P.flatten ++ A) Q.flatten x [(x.1, .conditionalJump c.opposite next), (b.nextId, loadOffset),
        (b.nextId + 1, jumpSlot (b.gsTable.makeJITEntryFor target).1.getOffset)] := by
  obtain ⟨p, s⟩ := x
  have hne : ∀ y ∈ P.flatten ++ (A ++ Q.flatten), y.1 ≠ p := fun y hy => (h y hy).1
  have hP : ∀ y ∈ P.flatten, y.1 ≠ p := fun y hy => hne y (List.mem_append_left _ hy)
  have hPQ : ∀ y ∈ P.flatten ++ Q.flatten, y.1 ≠ p := by
    intro y hy
    refine hne y ?_
    rw [List.mem_append] at hy ⊢
    exact hy.imp_right (List.mem_append_right A)
  simp only [rewriteTailRecursion, hblocks, nextFirst_fill hP, Option.bind_eq_bind, Option.bind_eq_some_iff,
    Option.some.injEq] at hrw
  obtain ⟨next, ⟨block, hblock, hnext⟩, hb'⟩ := hrw
  have hedit : ∀ (s : Semantic χ I) f, (P ++ (A ++ [(p, s)]) :: Q).map (edit p f) = P ++ (A ++ (f (p, s) ++ [])) :: Q :=
    fun s f => @map_edit_point χ I P Q A [] [] p s f hne (fun _ hy => nomatch hy)
  have hblocks' : b'.blocks = P ++ (A ++ [(p, .conditionalJump c.opposite next)]) :: [(b.nextId, loadOffset),
      (b.nextId + 1, jumpSlot (b.gsTable.makeJITEntryFor target).1.getOffset)] :: Q := by
    rw [← hb', Body.insertBeforeJumpTo, Body.setSemantic, Body.edit, Body.edit]
    dsimp only
    rw [hedit, List.append_nil, hedit]
    exact splitLast_fill hPQ
  have hnextId : b'.nextId = b.nextId + 2 := by
    rw [← hb']
    rfl
  refine ⟨by rw [← hb']; rfl, next, ?_, ⟨?_, ?_, ⟨rfl, fun y hy => ?_⟩, ?_, ?_⟩⟩
  · obtain ⟨Q', rfl⟩ := List.head?_eq_some_iff.1 hblock
    rw [List.flatten_cons, List.head?_append, Option.map_or, hnext]
    rfl
  · simp [Body.code, hblocks']
  · rw [hblocks] at hshaped
    rw [hblocks']
    refine hshaped.fill (R := [[_, _]]) (by simp) ?_ ?_
    · intro y hy
      rw [List.mem_singleton.1 hy]
      rfl
    · intro block' hblock'
      rw [List.mem_singleton.1 hblock']
      refine ⟨by simp, fun y hy => ?_⟩
      rw [List.mem_singleton.1 hy]
      rfl
  · rw [hnextId]
    simp only [List.tail_cons, List.mem_cons, List.not_mem_nil, or_false] at hy
    rcases hy with rfl | rfl
    · exact ⟨le_rfl, by omega⟩
    · exact ⟨Nat.le_succ _, Nat.lt_succ_self _⟩
  · simp
  · omega

theorem rewrite_sequence {table₀ : GSTable χ} {jump first : Semantic χ I} {rest : List (Semantic χ I)}
    (hb' : b' = { b with gsTable := table₀ }.replace x.1 jump first rest) (hnone : ∀ s ∈ first :: jump :: rest, s.workList = none)
    (hgrows : Grows b.gsTable table₀)
    (hstable : ∀ table, Grows table₀ table → rewritten table self b.nextId x.1 0 t = sequence b.nextId x.1 first rest jump)
    (ht : t.condition = none) :
    Grows b.gsTable b'.gsTable ∧ ∃ next piece, Replaced b b' (P.flatten ++ A) Q.flatten x piece ∧
      (∀ table, Grows b'.gsTable table → rewritten table self b.nextId x.1 next t = piece) ∧
      ∀ c target, t = .conditionalJump c target → Q.flatten.head?.map (·.1) = some next := by
  obtain ⟨hreplaced, htable⟩ := @replaced_sequence χ I b P Q A x hshaped hblocks h hp table₀ jump first rest hnone
  rw [← hb'] at hreplaced htable
  rw [htable]
  refine ⟨hgrows, 0, _, hreplaced, hstable, ?_⟩
  rintro c target rfl
  cases ht

/-- Each of the rewriting functions puts in place what stands for the instruction, with the entries that it made. -/
theorem rewrite_replaced (ht : x.2.transfer = some t) (hrw : rewrite self b x = some b') :
    Grows b.gsTable b'.gsTable ∧ ∃ next piece, Replaced b b' (P.flatten ++ A) Q.flatten x piece ∧
      (∀ table, Grows b'.gsTable table → rewritten table self b.nextId x.1 next t = piece) ∧
      ∀ c target, t = .conditionalJump c target → Q.flatten.head?.map (·.1) = some next := by
  have hself : Grows b.gsTable (b.gsTable.makeJITEntryFor self).2 := grows_make b.gsTable self
  obtain ⟨p, s⟩ := x
  cases s with
  | directCall target =>
    obtain _ | target := target
    · cases ht
    cases ht
    cases hrw
    have htarget := grows_make b.gsTable target
    have hself := grows_make (b.gsTable.makeJITEntryFor target).2 self
    refine rewrite_sequence hshaped hblocks h hp rfl ?_ (htarget.trans hself) (fun table htable => ?_) rfl
    · simp [jumpSlot, push1, movRA, loadOffset, Semantic.workList]
    · rw [rewritten, slotOffset_of_grows htable, slotOffset_of_grows (hself.trans htable)]
      rfl
  | externalJump mnemonic target =>
    obtain _ | target := target
    · cases mnemonic <;> cases ht
    cases mnemonic with
    | jmp =>
      cases ht
      cases hrw
      refine rewrite_sequence hshaped hblocks h hp rfl ?_ (grows_make b.gsTable target) (fun table htable => ?_) rfl
      · simp [jumpSlot, loadOffset, Semantic.workList]
      · rw [rewritten, slotOffset_of_grows htable]
        rfl
    | conditional c =>
      cases ht
      obtain ⟨htable, next, hnext, hreplaced⟩ := rewriteTailRecursion_replaced hshaped hblocks h hp hrw
      refine ⟨htable ▸ grows_make b.gsTable target, next, _, hreplaced, fun table hgrows => ?_, fun _ _ _ => hnext⟩
      rw [htable] at hgrows
      rw [rewritten, slotOffset_of_grows hgrows]
    | unknown => cases ht
  | indirectCall o =>
    cases ht
    cases hrw
    refine rewrite_sequence hshaped hblocks h hp rfl ?_ hself (fun table htable => ?_) rfl
    · simp [jumpSlotR11, push1, movRA, movEA, moveOffset, Semantic.workList]
    · rw [rewritten, slotOffset_of_grows htable]
      rfl
  | indirectJump o forJumpTable =>
    obtain _ | _ := forJumpTable
    · cases ht
      cases hrw
      refine rewrite_sequence hshaped hblocks h hp rfl ?_ (Grows.refl _) (fun table _ => rfl) rfl
      simp [jumpSlotR11, movEA, moveOffset, Semantic.workList]
    · cases ht
  | dataLinked isCall link =>
    obtain _ | link := link
    · cases isCall <;> cases ht
    cases isCall with
    | true =>
      cases ht
      cases hrw
      refine rewrite_sequence hshaped hblocks h hp rfl ?_ hself (fun table htable => ?_) rfl
      · simp [jumpSlotR11, push1, movRA, movLinked, moveOffset, Semantic.workList]
      · rw [rewritten, slotOffset_of_grows htable]
        rfl
    | false =>
      cases ht
      cases hrw
      obtain ⟨address, isRIPRelative, normal⟩ := link
      cases normal with
      | none =>
        refine rewrite_sequence hshaped hblocks h hp rfl ?_ (Grows.refl _) (fun table _ => rfl) rfl
        simp [jumpSlotR11, movLinked, moveOffset, Semantic.workList]
      | some target =>
        refine rewrite_sequence hshaped hblocks h hp rfl ?_ (grows_make b.gsTable target) (fun table htable => ?_) rfl
        · simp [jumpSlotR11, movLinked, moveOffset, Semantic.workList]
        · rw [rewritten, DataLink.jumpLink]
          dsimp only
          rw [slotOffset_of_grows htable]
          rfl
  | _ => cases ht

end Rewrite

/-! ## The run of `convert` -/

section Convert

variable [DecidableEq χ] {f : Function χ I} {table table' : GSTable χ} {done rest piece : List (Instruction χ I)}
  {x y : Instruction χ I}

/-- What an instruction has become when some are done. -/
inductive Stage (f : Function χ I) (done : List (Instruction χ I)) (table : GSTable χ) (x : Instruction χ I)
    (rest : List (Instruction χ I)) : List (Instruction χ I) → Prop
  | same : x.2.transfer = none ∨ x ∉ done → Stage f done table x rest [x]
  | new {t n next piece} : x.2.transfer = some t → x ∈ done → f.nextId ≤ n →
    (∀ c target, t = .conditionalJump c target → rest.head?.map (·.1) = some next) →
    (∀ table', Grows table table' → rewritten table' f.self n x.1 next t = piece) → Stage f done table x rest piece

theorem rewritten_labelled (self : χ) (next : Nat) (t : Transfer χ) {k : Nat} (hk : k ≤ n) :
    Labelled (k ≤ ·) x (rewritten (I := I) table self n x.1 next t) := by
  have hsequence : ∀ (jump first : Semantic χ I) rest, Labelled (k ≤ ·) x (sequence n x.1 first rest jump) := by
    intro jump first rest
    refine ⟨rfl, fun y hy => ?_⟩
    rw [sequence, List.tail_cons, List.mem_append, List.mem_singleton] at hy
    rcases hy with hy | rfl
    · have hmem := (List.of_mem_zip (show (y.1, y.2) ∈ _ from hy)).1
      rw [List.mem_range'_1] at hmem
      omega
    · exact hk
  cases t with
  | call source => cases source <;> exact hsequence _ _ _
  | jump source => cases source <;> exact hsequence _ _ _
  | conditionalJump c target =>
    refine ⟨rfl, fun y hy => ?_⟩
    simp only [rewritten, List.tail_cons, List.mem_cons, List.not_mem_nil, or_false] at hy
    rcases hy with rfl | rfl
    · exact hk
    · exact hk.trans (Nat.le_succ n)

theorem Stage.labelled (h : Stage f done table x rest piece) : Labelled (f.nextId ≤ ·) x piece := by
  cases h with
  | same => exact ⟨rfl, fun _ h => nomatch h⟩
  | new ht hmem hn hnext hstable =>
    rw [← hstable table (Grows.refl table)]
    exact rewritten_labelled _ _ _ hn

/-- What an instruction has become stays when others are done. -/
theorem Stage.mono (h : Stage f done table y rest piece) (hy : y.2.transfer = none ∨ y ≠ x) (hgrows : Grows table table') :
    Stage f (done ++ [x]) table' y rest piece := by
  cases h with
  | same hsame =>
    refine .same (hsame.elim .inl fun hnot => hy.imp_right fun hne hmem => ?_)
    rcases List.mem_append.1 hmem with hmem | hmem
    · exact hnot hmem
    · exact hne (List.mem_singleton.1 hmem)
  | new ht hmem hn hnext hstable =>
    exact .new ht (List.mem_append_left _ hmem) hn hnext fun table'' h => hstable table'' (hgrows.trans h)

structure Converting (f : Function χ I) (done : List (Instruction χ I)) (b : Body χ I) : Prop where
  pieces : Pieces (Stage f done b.gsTable) f.code b.code
  nodup : (b.code.map (·.1)).Nodup
  ids : ∀ y ∈ b.code, y.1 < b.nextId
  nextId : f.nextId ≤ b.nextId
  shaped : Shaped b.blocks

theorem converting_start (f : Function χ I) : Converting f [] f.toBody := by
  refine ⟨?_, f.nodup, f.ids, le_rfl, f.shaped⟩
  have hsame : ∀ code : List (Instruction χ I), Pieces (Stage f [] f.gsTable) code code := by
    intro code
    induction code with
    | nil => exact .nil
    | cons x code ih =>
      change Pieces (Stage f [] f.gsTable) (x :: code) ([x] ++ code)
      exact .cons (.same (.inr List.not_mem_nil)) ih
  exact hsame f.code

theorem rewrite_none {self : χ} (hx : x.2.transfer = none) (h : rewrite self b x = some b') : b' = b := by
  obtain ⟨p, s⟩ := x
  cases s with
  | directCall target =>
    cases target with
    | none => exact (Option.some.inj h).symm
    | some target => cases hx
  | externalJump mnemonic target =>
    cases target with
    | none => exact (Option.some.inj h).symm
    | some target =>
      cases mnemonic with
      | unknown => cases h
      | _ => cases hx
  | indirectCall o => cases hx
  | indirectJump o forJumpTable =>
    cases forJumpTable with
    | false => cases hx
    | true => exact (Option.some.inj h).symm
  | dataLinked isCall link =>
    cases link with
    | none => cases isCall <;> exact (Option.some.inj h).symm
    | some link => cases isCall <;> cases hx
  | _ => exact (Option.some.inj h).symm

theorem workList_of_transfer {s : Semantic χ I} {t : Transfer χ} (hs : s.transfer = some t) : s.workList ≠ none := by
  cases s with
  | directCall target => exact Option.some_ne_none _
  | externalJump mnemonic target => exact Option.some_ne_none _
  | indirectCall o => exact Option.some_ne_none _
  | indirectJump o forJumpTable =>
    cases forJumpTable with
    | false => exact Option.some_ne_none _
    | true => cases hs
  | dataLinked isCall link => cases isCall <;> exact Option.some_ne_none _
  | _ => cases hs

/-- The labels behind a rewriting. -/
theorem nodup_replaced {front back : List (Instruction χ I)} (hcode : b.code = front ++ x :: back)
    (hnodup : (b.code.map (·.1)).Nodup) (hids : ∀ y ∈ b.code, y.1 < b.nextId) (h : Replaced b b' front back x piece) :
    (b'.code.map (·.1)).Nodup ∧ ∀ y ∈ b'.code, y.1 < b'.nextId := by
  obtain ⟨z, tail, rfl⟩ : ∃ z tail, piece = z :: tail := by
    cases piece with
    | nil => exact absurd h.labelled.first (by simp)
    | cons z tail => exact ⟨z, tail, rfl⟩
  have hz : z.1 = x.1 := Option.some.inj h.labelled.first
  have htail : ∀ y ∈ tail, b.nextId ≤ y.1 ∧ y.1 < b'.nextId := h.labelled.others
  have hnextId := h.nextId
  rw [hcode] at hnodup hids
  rw [h.code]
  constructor
  · have hperm : ((front ++ ((z :: tail) ++ back)).map (·.1)).Perm (tail.map (·.1) ++ (front ++ x :: back).map (·.1)) := by
      refine List.perm_iff_count.2 fun l => ?_
      simp only [List.map_append, List.map_cons, List.cons_append, List.count_append, List.count_cons, hz]
      omega
    rw [hperm.nodup_iff, List.nodup_append]
    refine ⟨h.nodup, hnodup, fun l hl l' hl' => ?_⟩
    obtain ⟨y, hy, rfl⟩ := List.mem_map.1 hl
    obtain ⟨y', hy', rfl⟩ := List.mem_map.1 hl'
    have := htail y hy
    have := hids y' hy'
    omega
  · intro y hy
    simp only [List.mem_append, List.mem_cons] at hy
    rcases hy with hy | (rfl | hy) | hy
    · have := hids y (List.mem_append_left _ hy)
      omega
    · have := hids x (by simp)
      omega
    · exact (htail y hy).2
    · have := hids y (by simp [hy])
      omega

theorem converting_step (hx : x ∈ f.code) (hnew : x ∉ done) (h : Converting f done b) (hrw : rewrite f.self b x = some b') :
    Converting f (done ++ [x]) b' := by
  obtain ⟨A, B, hcode⟩ := List.append_of_mem hx
  have hne : ∀ y ∈ A ++ B, y ≠ x := by
    rintro y hy rfl
    have hnodup := List.Nodup.of_map _ f.nodup
    rw [← Body.code, hcode, List.perm_middle.nodup_iff, List.nodup_cons] at hnodup
    exact hnodup.1 hy
  have hpieces := h.pieces
  rw [hcode, pieces_append] at hpieces
  obtain ⟨A', C, hb, hA, hC⟩ := hpieces
  obtain _ | @⟨_, _, piece, B', hxp, hB⟩ := hC
  have hpiece : piece = [x] := by
    cases hxp with
    | same => rfl
    | new _ hmem => exact absurd hmem hnew
  subst hpiece
  cases ht : x.2.transfer with
  | none =>
    rw [rewrite_none ht hrw]
    refine ⟨h.pieces.mono fun y hy rest piece hstage => hstage.mono ?_ (Grows.refl _), h.nodup, h.ids, h.nextId, h.shaped⟩
    by_cases hyx : y = x
    · exact .inl (hyx ▸ ht)
    · exact .inr hyx
  | some t =>
    obtain ⟨P, A₀, Q, hblocks, hA', hB'⟩ := h.shaped.locate hb (workList_of_transfer ht)
    have hothers : ∀ y ∈ P.flatten ++ (A₀ ++ Q.flatten), y.1 ≠ x.1 ∧ y.1 < b.nextId := by
      intro y hy
      rw [← List.append_assoc, ← hA', ← hB'] at hy
      have hnodup := h.nodup
      rw [hb, List.singleton_append, List.map_append, List.map_cons, List.perm_middle.nodup_iff, List.nodup_cons] at hnodup
      refine ⟨fun heq => hnodup.1 ?_, h.ids y ?_⟩
      · rw [← List.map_append, ← heq]
        exact List.mem_map_of_mem hy
      · rw [hb, List.mem_append, List.mem_append]
        exact (List.mem_append.1 hy).imp_right .inr
    have hxid : x.1 < b.nextId := h.ids x (by rw [hb]; simp)
    obtain ⟨hgrows, next, piece, hreplaced, hstable, hnext⟩ := rewrite_replaced h.shaped hblocks hothers hxid ht hrw
    rw [← hA', ← hB'] at hreplaced
    obtain ⟨hnodup, hids⟩ := nodup_replaced hb h.nodup h.ids hreplaced
    refine ⟨?_, hnodup, hids, h.nextId.trans hreplaced.nextId, hreplaced.shaped⟩
    rw [hcode, pieces_append]
    refine ⟨A', piece ++ B', hreplaced.code, hA.mono fun y hy rest piece hstage => hstage.mono (.inr ?_) hgrows, .cons ?_ ?_⟩
    · exact hne y (List.mem_append_left _ hy)
    · refine .new ht (List.mem_append_right _ (List.mem_singleton_self x)) h.nextId (fun c target hc => ?_) hstable
      rw [← hnext c target hc, ← hB']
      exact (hB.head fun _ _ _ => Stage.labelled).symm
    · exact hB.mono fun y hy rest piece hstage => hstage.mono (.inr (hne y (List.mem_append_right _ hy))) hgrows

theorem mem_workLists {code : List (Instruction χ I)} : x ∈ workLists code ↔ x ∈ code ∧ x.2.workList ≠ none := by
  simp only [workLists, List.mem_flatMap, List.mem_filter, decide_eq_true_eq]
  constructor
  · rintro ⟨list, -, hx, hlist⟩
    exact ⟨hx, by rw [hlist]; exact Option.some_ne_none _⟩
  · rintro ⟨hx, hlist⟩
    obtain ⟨list, hlist⟩ := Option.ne_none_iff_exists'.1 hlist
    exact ⟨list, by cases list <;> simp, hx, hlist⟩

theorem nodup_workLists {code : List (Instruction χ I)} (h : code.Nodup) : (workLists code).Nodup := by
  refine List.nodup_flatMap.2 ⟨fun list _ => h.filter _, ?_⟩
  have hlists : [WorkList.directCalls, .tailRecursions, .indirectCalls, .indirectTailRecursions, .RIPrelativeCalls,
    .RIPrelativeJumps].Pairwise (· ≠ ·) := by decide
  refine hlists.imp fun {list list'} hne x hx hx' => hne ?_
  rw [List.mem_filter, decide_eq_true_eq] at hx hx'
  exact Option.some.inj (hx.2.symm.trans hx'.2)

theorem converting_workLists (h : convert f = some b) : Converting f (workLists f.code) b := by
  refine foldlM_invariant_done (Converting f) (fun done x rest s s' hl hs hstep => ?_) (converting_start f) h
  have hx : x ∈ workLists f.code := by rw [hl]; simp
  have hnew := nodup_workLists (List.Nodup.of_map _ f.nodup)
  refine converting_step (mem_workLists.1 hx).1 (fun hmem => ?_) hs hstep
  rw [← Body.code, hl, List.nodup_append] at hnew
  exact hnew.2.2 x hmem x List.mem_cons_self rfl

/-! ## Places -/

variable {c : Conversion f} {before after A' B' : List (Instruction χ I)}

omit [DecidableEq χ] in
theorem behind_append {code : List (Instruction χ I)} {l : Nat} (hcode : code = A ++ B) (hnodup : (code.map (·.1)).Nodup)
    (hl : B.head?.map (·.1) = some l) : behind code l = B := by
  obtain ⟨y, hy, rfl⟩ := Option.map_eq_some_iff.1 hl
  obtain ⟨B, rfl⟩ := List.head?_eq_some_iff.1 hy
  rw [hcode, List.map_append, List.nodup_append] at hnodup
  rw [behind, hcode, List.dropWhile_append_of_pos, List.dropWhile_cons_of_neg (by simp)]
  intro z hz
  have hne : z.1 ≠ y.1 := hnodup.2.2 z.1 (List.mem_map_of_mem hz) y.1 (by simp)
  simpa using hne

theorem at_of_pieces (h : Converting f done c.result)
    (hA : Pieces (fun x rest piece => Stage f done c.result.gsTable x (rest ++ after) piece) before A')
    (hB : Pieces (Stage f done c.result.gsTable) after B') (hcode : c.result.code = A' ++ B') : At f c before after B' := by
  refine ⟨?_, ?_, fun x hx => ?_, ?_⟩
  · rintro rfl
    cases hA
    exact hcode
  · rintro front x rfl hx
    obtain ⟨F', Y', rfl, -, hY⟩ := pieces_append.1 hA
    obtain _ | @⟨_, _, piece, _, hstage, hnil⟩ := hY
    cases hnil
    cases hstage with
    | same => exact ⟨F', by rw [hcode]; simp⟩
    | new ht =>
      rw [hx] at ht
      cases ht
  · refine behind_append hcode h.nodup ?_
    rw [hB.head fun _ _ _ => Stage.labelled, hx]
    rfl
  · rintro rfl
    cases hB
    rfl

/-- Every instruction that is rewritten is reached in its new place as before. What is there does what it should, whatever
is in the memory, the flags and `%mm1`, exactly if that is right. -/
theorem converted_iff (f : Function χ I) (c : Conversion f) (site : Site f) (originalSize : Semantic χ I → Nat) (base : Word)
    (regs : Register → Word) : ∃ pos after, At f c site.before ((site.point, site.semantic) :: site.after) pos ∧
      At f c (site.before ++ [(site.point, site.semantic)]) site.after after ∧
      ((∀ mem flags mm1, Does c.result.gsTable site.transfer
          (returnWord c.result.gsTable f.self originalSize c.result.code base after) after ⟨⟨regs, mem, flags⟩, mm1⟩
          (run originalSize c.result.code base pos ⟨⟨regs, mem, flags⟩, mm1⟩)) ↔
        Right c.result.gsTable regs (address originalSize c.result.code base after - 8) site.transfer) := by
  have h := converting_workLists c.convert_eq
  have hmem : (site.point, site.semantic) ∈ workLists f.code := by
    refine mem_workLists.2 ⟨?_, workList_of_transfer site.transfer_eq⟩
    rw [site.code_eq]
    simp
  generalize workLists f.code = done at h hmem
  have hpieces := h.pieces
  rw [site.code_eq, pieces_append] at hpieces
  obtain ⟨A', C, hcode, hA, hC⟩ := hpieces
  obtain _ | @⟨_, _, piece, B', hsite, hB⟩ := hC
  have hlast : Pieces (fun x rest piece => Stage f done c.result.gsTable x (rest ++ site.after) piece)
      (site.before ++ [(site.point, site.semantic)]) (A' ++ piece) := by
    refine pieces_append.2 ⟨A', piece, rfl, ?_, ?_⟩
    · simpa using hA
    · rw [← List.append_nil piece]
      exact .cons hsite .nil
  refine ⟨piece ++ B', B', at_of_pieces h hA (.cons hsite hB) hcode, at_of_pieces h hlast hB (by rw [hcode, List.append_assoc]), ?_⟩
  cases hsite with
  | same hsame => exact (hsame.elim (fun hnone => nomatch site.transfer_eq.symm.trans hnone) fun hnot => hnot hmem).elim
  | new ht _ hn hnext hstable =>
    cases site.transfer_eq.symm.trans ht
    rw [← hstable _ (Grows.refl _)] at hcode ⊢
    refine rewritten_does_iff ⟨hcode, h.nodup, fun condition target ht => ?_⟩
    refine behind_append (hcode.trans (List.append_assoc ..).symm) h.nodup ?_
    rw [hB.head fun _ _ _ => Stage.labelled]
    exact hnext condition target ht

end Convert

/-! ## An operand on the stack -/

theorem scale_one : 1 ∈ [1, 2, 4, 8] := by decide

/-- `(%rsp)` -/
def stackOperand : IndirectOperand := .mem ⟨some rsp, none, 1, 0, by decide, scale_one⟩

/-- `call *(%rsp)` -/
def stackFunction : Function Nat Empty where
  blocks := [[(0, .indirectCall stackOperand)]]
  nextId := 1
  gsTable := .new
  self := 0
  nodup := by decide
  ids := by decide
  shaped := by simp [Shaped]

def stackConversion : Conversion stackFunction := ⟨_, rfl⟩

/-- The word that was pushed before is taken for the target. -/
theorem stack_operand_not_loaded : ¬ ∃ pos after, At stackFunction stackConversion [] [(0, .indirectCall stackOperand)] pos ∧
    At stackFunction stackConversion [(0, .indirectCall stackOperand)] [] after ∧ ∀ regs mem flags mm1,
      Does stackConversion.result.gsTable (.call (.operand stackOperand))
        (returnWord stackConversion.result.gsTable 0 (fun _ => 0) stackConversion.result.code 0 after) after
        ⟨⟨regs, mem, flags⟩, mm1⟩ (run (fun _ => 0) stackConversion.result.code 0 pos ⟨⟨regs, mem, flags⟩, mm1⟩) := by
  rintro ⟨pos, after, hpos, hafter, h⟩
  -- both places can only be those of the new code
  have hcode : stackConversion.result.code =
      [] ++ (rewritten stackConversion.result.gsTable 0 1 0 0 (.call (.operand stackOperand)) ++ []) := rfl
  have hplaced : Placed stackConversion.result.gsTable 0 stackConversion.result.code [] [] 1 0 0
      (.call (.operand stackOperand)) := by
    refine ⟨hcode, ?_, fun _ _ ht => nomatch ht⟩
    rw [hcode]
    decide
  obtain rfl := hafter.stop rfl
  obtain rfl := hpos.start rfl
  have hright := (call_operand_iff hplaced).1 (h fun _ => 8)
  exact absurd hright.2.1 (by decide)

end Egalito.UseGSTable
