import Egalito.Code.Function
/-!
# Passes weave

A pass that goes through a function and inserts code at some instructions makes
woven code: every edit changes the place of one instruction, where the objects
that it adds are new.
-/

open Egalito.Lib

namespace Egalito.Code

variable {p N : Nat} {s : Semantic} {new x : Instruction} {news A B : List Instruction} {b : Body}

/-! ## Edits at one place -/

theorem flatten_insertBefore (blocks : List (List Instruction)) :
    (blocks.map (insertBefore p new)).flatten = insertBefore p new blocks.flatten := by
  induction blocks with
  | nil => rfl
  | cons block blocks ih => simp only [List.map_cons, List.flatten_cons, ih, insertBefore, List.flatMap_append]

theorem flatten_insertBeforeJumpTo (blocks : List (List Instruction)) :
    (blocks.map (insertBeforeJumpTo p new)).flatten = insertBeforeJumpTo p new blocks.flatten := by
  induction blocks with
  | nil => rfl
  | cons block blocks ih => simp only [List.map_cons, List.flatten_cons, ih, insertBeforeJumpTo, List.flatMap_append]

/-- A loop of edits of every block is that loop on the whole code. -/
theorem flatten_foldl {edit : List Instruction → Instruction → List Instruction}
    (hedit : ∀ new blocks, (List.map (fun block => edit block new) blocks).flatten = edit blocks.flatten new)
    (news : List Instruction) (blocks : List (List Instruction)) :
    (blocks.map fun block => news.foldl edit block).flatten = news.foldl edit blocks.flatten := by
  induction news generalizing blocks with
  | nil => simp
  | cons new news ih =>
    simp only [List.foldl_cons]
    rw [← hedit, ← ih, List.map_map]
    rfl

theorem code_insertAll (code : List Semantic) (beforeJumpTo : Bool) :
    (b.insertAll p code beforeJumpTo).code = insertAllBefore p (b.newInstructions code) beforeJumpTo b.code := by
  unfold Body.code Body.insertAll insertAllBefore
  cases beforeJumpTo with
  | true => exact flatten_foldl (fun new blocks => flatten_insertBeforeJumpTo blocks) _ _
  | false => exact flatten_foldl (fun new blocks => flatten_insertBefore blocks) _ _

/-- Away from the point an edit does nothing. -/
theorem flatMap_away {f : Instruction → List Instruction} (hA : ∀ y ∈ A, y.1 ≠ p) :
    A.flatMap (fun y => if y.1 = p then f y else [y]) = A := by
  induction A with
  | nil => rfl
  | cons y A ih =>
    rw [List.flatMap_cons, if_neg (hA y List.mem_cons_self), ih fun z hz => hA z (List.mem_cons_of_mem _ hz)]
    rfl

section Point

variable (hA : ∀ y ∈ A, y.1 ≠ p) (hB : ∀ y ∈ B, y.1 ≠ p)

include hA hB

theorem flatMap_point {f : Instruction → List Instruction} :
    (A ++ (p, s) :: B).flatMap (fun y => if y.1 = p then f y else [y]) = A ++ (f (p, s) ++ B) := by
  rw [List.flatMap_append, List.flatMap_cons, if_pos rfl, flatMap_away hA, flatMap_away hB]

theorem insertBefore_point : insertBefore p new (A ++ (p, s) :: B) = A ++ new :: (p, s) :: B :=
  flatMap_point hA hB

theorem insertBeforeJumpTo_point :
    insertBeforeJumpTo p new (A ++ (p, s) :: B) = A ++ (p, new.2) :: (new.1, s) :: B :=
  flatMap_point hA hB

end Point

/-- The new code in the object that was there, and what was there in the last new object. -/
def chain : Nat → Semantic → List Instruction → List Instruction
  | p, s, [] => [(p, s)]
  | p, s, new :: news => (p, new.2) :: chain new.1 s news

theorem chain_head (s : Semantic) (news : List Instruction) :
    ∃ c rest, (∀ p, chain p s news = (p, c) :: rest) ∧ ∀ y ∈ rest, y.1 ∈ news.map (·.1) := by
  induction news with
  | nil => exact ⟨s, [], fun _ => rfl, by simp⟩
  | cons new news ih =>
    obtain ⟨c, rest, hchain, hrest⟩ := ih
    refine ⟨new.2, (new.1, c) :: rest, fun p => ?_, fun y hy => ?_⟩
    · rw [chain, hchain]
    · rcases List.mem_cons.1 hy with rfl | hy
      · exact List.mem_cons_self
      · exact List.mem_cons_of_mem _ (hrest y hy)

theorem mem_chain {y : Instruction} (h : y ∈ chain p s news) : y.1 = p ∨ ∃ z ∈ news, z.1 = y.1 := by
  obtain ⟨c, rest, hchain, hrest⟩ := chain_head s news
  rw [hchain, List.mem_cons] at h
  rcases h with rfl | h
  · exact .inl rfl
  · exact .inr (List.mem_map.1 (hrest y h))

/-- The last of the code is inserted first. -/
theorem insertAllBefore_jump (hA : ∀ y ∈ A, y.1 ≠ p) (hB : ∀ y ∈ B, y.1 ≠ p) (hnews : ∀ y ∈ news, y.1 ≠ p) :
    insertAllBefore p news true (A ++ (p, s) :: B) = A ++ (chain p s news ++ B) := by
  unfold insertAllBefore
  rw [if_pos rfl, List.foldl_reverse]
  induction news with
  | nil => rfl
  | cons new news ih =>
    obtain ⟨c, rest, hchain, hrest⟩ := chain_head s news
    rw [List.foldr_cons, ih fun y hy => hnews y (List.mem_cons_of_mem _ hy), hchain, List.cons_append,
      insertBeforeJumpTo_point hA, chain, hchain]
    · rfl
    · intro y hy
      rcases List.mem_append.1 hy with hy | hy
      · obtain ⟨z, hz, hzy⟩ := List.mem_map.1 (hrest y hy)
        exact hzy ▸ hnews z (List.mem_cons_of_mem _ hz)
      · exact hB y hy

theorem insertAllBefore_front (hA : ∀ y ∈ A, y.1 ≠ p) (hB : ∀ y ∈ B, y.1 ≠ p) (hnews : ∀ y ∈ news, y.1 ≠ p) :
    insertAllBefore p news false (A ++ (p, s) :: B) = A ++ (news ++ (p, s) :: B) := by
  unfold insertAllBefore
  rw [if_neg Bool.false_ne_true]
  induction news generalizing A with
  | nil => rfl
  | cons new news ih =>
    have hA' : ∀ y ∈ A ++ [new], y.1 ≠ p := by
      intro y hy
      rcases List.mem_append.1 hy with hy | hy
      · exact hA y hy
      · exact hnews y (List.mem_singleton.1 hy ▸ List.mem_cons_self)
    have hsplit : A ++ new :: (p, s) :: B = (A ++ [new]) ++ (p, s) :: B := by simp
    rw [List.foldl_cons, insertBefore_point hA hB, hsplit, ih hA' fun y hy => hnews y (List.mem_cons_of_mem _ hy)]
    simp

/-! ## Pieces -/

theorem chain_eq (p : Nat) (s : Semantic) (news : List Instruction) :
    ∃ back l, chain p s news = back ++ [(l, s)] ∧ back.map (·.2) = news.map (·.2) := by
  induction news generalizing p with
  | nil => exact ⟨[], p, rfl, rfl⟩
  | cons new news ih =>
    obtain ⟨back, l, hchain, hops⟩ := ih new.1
    refine ⟨(p, new.2) :: back, l, ?_, ?_⟩
    · rw [chain, hchain]
      rfl
    · rw [List.map_cons, hops, List.map_cons]

variable {w : Weave Nat Semantic} {free : Nat → Prop}

theorem piece_chain (hbefore : w.before x = []) (hops : news.map (·.2) = w.atLabel x) (hfree : ∀ y ∈ news, free y.1) :
    ∃ back l, Piece w free x [] back l ∧ chain x.1 x.2 news = back ++ [(l, x.2)] := by
  obtain ⟨back, l, hchain, hback⟩ := chain_eq x.1 x.2 news
  obtain ⟨c, rest, hhead, hrest⟩ := chain_head x.2 news
  have hsplit : back ++ [(l, x.2)] = (x.1, c) :: rest := by rw [← hchain, hhead]
  refine ⟨back, l, ⟨hbefore.symm, fun _ h => (nomatch h), hback.trans hops, ?_, ?_⟩, hchain⟩
  · rw [hsplit]
    rfl
  · rw [hsplit]
    intro y hy
    obtain ⟨z, hz, hzy⟩ := List.mem_map.1 (hrest y hy)
    exact hzy ▸ hfree z hz

theorem piece_before (hops : news.map (·.2) = w.before x) (hat : w.atLabel x = []) (hfree : ∀ y ∈ news, free y.1) :
    Piece w free x news [] x.1 :=
  ⟨hops, hfree, hat.symm, rfl, fun _ h => nomatch h⟩

theorem mem_newInstructions {code : List Semantic} {y : Instruction} (h : y ∈ b.newInstructions code) :
    b.nextId ≤ y.1 := by
  have := (List.of_mem_zip h).1
  rw [List.mem_range'_1] at this
  exact this.1

theorem lt_of_mem_newInstructions {code : List Semantic} {y : Instruction} (h : y ∈ b.newInstructions code) :
    y.1 < b.nextId + code.length := by
  have := (List.of_mem_zip h).1
  rw [List.mem_range'_1] at this
  exact this.2

theorem newInstructions_ops (code : List Semantic) : (b.newInstructions code).map (·.2) = code :=
  List.map_snd_zip (by simp)

/-! ## The loop over a function -/

/-- One round of the loop keeps an invariant and puts a piece in the place of its instruction. -/
def Edits (w : Weave Nat Semantic) (N : Nat) (Inv : Body → Prop) (edit : Body → Instruction → Body) : Prop :=
  ∀ b x A B, b.code = A ++ x :: B → (∀ y ∈ A, y.1 ≠ x.1) → (∀ y ∈ B, y.1 ≠ x.1) → x.1 < N → Inv b →
    Inv (edit b x) ∧ ∃ front back l, Piece w (N ≤ ·) x front back l ∧
      (edit b x).code = A ++ (front ++ (back ++ (l, x.2) :: B))

theorem foldl_woven {Inv : Body → Prop} {edit : Body → Instruction → Body} (hedit : Edits w N Inv edit)
    {code : List Instruction} (hcode : b.code = A ++ code) (hnext : Inv b) (hnodup : (code.map (·.1)).Nodup) (hids : ∀ x ∈ code, x.1 < N)
    (hA : ∀ y ∈ A, y.1 ∉ code.map (·.1)) :
    ∃ body, Woven w (N ≤ ·) code body ∧ (code.foldl edit b).code = A ++ body := by
  induction code generalizing b A with
  | nil => exact ⟨[], .nil, hcode⟩
  | cons x code ih =>
    rw [List.map_cons, List.nodup_cons] at hnodup
    have hx : x.1 < N := hids x List.mem_cons_self
    have hxA : ∀ y ∈ A, y.1 ≠ x.1 := fun y hy heq => hA y hy (by simp [heq])
    have hxB : ∀ y ∈ code, y.1 ≠ x.1 := fun y hy heq => hnodup.1 (heq ▸ List.mem_map_of_mem hy)
    obtain ⟨hnext', front, back, l, hp, hcode'⟩ := hedit b x A code hcode hxA hxB hx hnext
    have hcode'' : (edit b x).code = (A ++ (front ++ (back ++ [(l, x.2)]))) ++ code := by
      rw [hcode']
      simp
    -- The labels of a piece are the one that was there, and new ones.
    have hnew : ∀ y : Instruction, N ≤ y.1 → y.1 ∉ code.map (·.1) := by
      intro y hy hmem
      obtain ⟨z, hz, hzy⟩ := List.mem_map.1 hmem
      have := hids z (List.mem_cons_of_mem _ hz)
      omega
    have hA' : ∀ y ∈ A ++ (front ++ (back ++ [(l, x.2)])), y.1 ∉ code.map (·.1) := by
      intro y hy
      rcases List.mem_append.1 hy with hy | hy
      · exact fun hmem => hA y hy (List.mem_cons_of_mem _ hmem)
      rcases List.mem_append.1 hy with hy | hy
      · exact hnew y (hp.front_free y hy)
      · obtain ⟨z, zs, hzs⟩ : ∃ z zs, back ++ [(l, x.2)] = z :: zs := List.exists_cons_of_ne_nil (by simp)
        have hlabel := hp.back_label
        have hfree := hp.back_free
        rw [hzs] at hlabel hfree hy
        rcases List.mem_cons.1 hy with rfl | hy
        · have hyx : y.1 = x.1 := Option.some.inj hlabel
          rw [hyx]
          exact hnodup.1
        · exact hnew y (hfree y hy)
    obtain ⟨body, hw, hbody⟩ := ih hcode'' hnext' hnodup.2 (fun y hy => hids y (List.mem_cons_of_mem _ hy)) hA'
    refine ⟨_, .cons hp hw, ?_⟩
    rw [List.foldl_cons, hbody]
    simp

/-! ## Paths of the original -/

theorem straight_of_inserted {s : Semantic} (h : s.isInserted = true) : Straight Semantic.next s := by
  cases s with
  | inserted i => rfl
  | _ => cases h

/-- All that is woven in is inserted code. -/
structure OnlyInserted (w : Weave Nat Semantic) : Prop where
  top : ∀ s ∈ w.top, s.isInserted = true
  before : ∀ x, ∀ s ∈ w.before x, s.isInserted = true
  atLabel : ∀ x, ∀ s ∈ w.atLabel x, s.isInserted = true

/-- A pass that puts new code on top and then edits every instruction: its runs are those of the original
with the code written in. -/
theorem runs_edited {f : Function} {Inv : Body → Prop} {edit : Body → Instruction → Body} {top : List Instruction}
    (hedit : Edits w f.nextId Inv edit) (hcode : b.code = top ++ f.code) (hinv : Inv b)
    (hops : top.map (·.2) = w.top) (hnew : ∀ y ∈ top, f.nextId ≤ y.1) (hw : OnlyInserted w) (ops : List Semantic) :
    Runs Semantic.next (f.code.foldl edit b).code (f.code.foldl edit b).code ops ↔
      ∃ t, Complete Semantic.next f.code t ∧ t.flatMap w.expand = ops := by
  have hA : ∀ y ∈ top, y.1 ∉ f.code.map (·.1) := by
    intro y hy hmem
    obtain ⟨x, hx, hxy⟩ := List.mem_map.1 hmem
    have := f.ids x hx
    have := hnew y hy
    omega
  obtain ⟨body, hwoven, hbody⟩ := foldl_woven hedit hcode hinv f.nodup f.ids hA
  rw [hbody]
  refine runs_woven_iff ⟨hops, hnew, ?_, ?_, ?_, ?_⟩ hwoven
  · exact fun s hs => straight_of_inserted (hw.top s hs)
  · exact fun x _ s hs => straight_of_inserted (hw.before x s hs)
  · exact fun x _ s hs => straight_of_inserted (hw.atLabel x s hs)
  · intro x hx l hl
    have := f.targets x hx l hl
    omega

def Original (t : List (Arrival × Instruction)) : Prop := ∀ y ∈ t, y.2.2.isInserted = false

theorem complete_original {f : Function} {t : List (Arrival × Instruction)} (ht : Complete Semantic.next f.code t) :
    Original t :=
  fun y hy => f.original y.2 (ht.mem_code (List.suffix_refl _) y hy)

end Egalito.Code
