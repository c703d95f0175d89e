import Egalito.Pass.ShadowStack
/-!
# Paths through an instrumented function

The pass weaves the push in at the top and a pop in front of everything it takes
for an exit. A pop in front of a conditional jump is also executed when control
stays in the function, and sets the flags that the jump tests; and a jump to the
function itself goes through the push again.
-/

open Egalito.Lib

namespace Egalito.Code.ShadowStack

/-! ## What the paths should be -/

/-- The return address is stored. -/
def isPush (s : Semantic) : Bool := s = ofBytes storeReturnBytes

/-- The pointer is moved back. -/
def isPop (s : Semantic) : Bool := s = ofBytes dropBytes

def lastWriter (ops : List Semantic) : Option Semantic := (ops.filter Semantic.writesFlags).getLast?

structure Balanced (ops : List Semantic) : Prop where
  pushed : ops.countP isPush = 1
  popped : ops.countP isPop = 1
  /-- The pop comes immediately before what leaves the function. -/
  last : ∃ front z exit, ops = front ++ (popCode z ++ [exit])
  /-- What an instruction of the original tests was not set by inserted code. -/
  flags : ∀ front s rest, ops = front ++ s :: rest → s.testsFlags = true →
    ∀ writer ∈ lastWriter front, writer.isInserted = false

/-- Only the last instruction is one that is popped at, it tests no flags, and no jump goes to the
function itself. -/
structure Undisturbed (t : List (Arrival × Instruction)) : Prop where
  once : ∀ y ∈ t.tail, y.1 ≠ .start
  exit : ∃ body last, t = body ++ [last] ∧ (∀ y ∈ body, popsAt y.2.2 = false) ∧ popsAt last.2.2 = true ∧
    last.2.2.testsFlags = false

def HasEntry (b : Body) : Prop := ∃ x, b.blocks.head?.bind List.head? = some x

/-! ## The pass weaves -/

/-- The pushed registers make every later `hasStackFrame` true. -/
def weave (redzone : Bool) : Weave Nat Semantic where
  top := pushCode redzone
  before := fun _ => []
  atLabel := fun x => if popsAt x.2 then popCode false else []

theorem pushCode_inserted (z : Bool) : ∀ s ∈ pushCode z, s.isInserted = true ∧ popsAt s = false := by
  cases z <;> decide

theorem popCode_inserted (z : Bool) : ∀ s ∈ popCode z, s.isInserted = true := by
  cases z <;> decide

variable {f : Function} {b : Body} {x : Instruction} {t : List (Arrival × Instruction)} {ops : List Semantic} {z : Bool}

theorem visitInstruction_edits (z : Bool) (N : Nat) :
    Edits (weave z) N (fun b => N ≤ b.nextId ∧ b.hasStackFrame = true) visitInstruction := by
  rintro b x A B hcode hA hB hx ⟨hnext, hframe⟩
  unfold visitInstruction
  by_cases hpops : popsAt x.2 = true
  · rw [if_pos hpops, popFromShadowStackGS, hframe, Bool.not_true]
    have hnew : ∀ y ∈ b.newInstructions (popCode false), N ≤ y.1 := fun y hy => hnext.trans (mem_newInstructions hy)
    obtain ⟨back, l, hp, hchain⟩ : ∃ back l, Piece (weave z) (N ≤ ·) x [] back l ∧
        chain x.1 x.2 (b.newInstructions (popCode false)) = back ++ [(l, x.2)] :=
      piece_chain rfl ((newInstructions_ops (popCode false)).trans (if_pos hpops).symm) hnew
    have hcode' : (b.insertAll x.1 (popCode false) true).code = A ++ (back ++ (l, x.2) :: B) := by
      rw [code_insertAll, hcode]
      refine (insertAllBefore_jump hA hB fun y hy => ?_).trans ?_
      · have := hnew y hy
        omega
      · rw [hchain]
        simp
    refine ⟨⟨hnext.trans (Nat.le_add_right _ _), ?_⟩, [], back, l, hp, hcode'⟩
    unfold Body.hasStackFrame at hframe ⊢
    rw [hcode] at hframe
    rw [hcode']
    simp only [List.any_append, List.any_cons, Bool.or_eq_true] at hframe ⊢
    tauto
  · rw [if_neg hpops]
    refine ⟨⟨hnext, hframe⟩, [], [], x.1, piece_before rfl (if_neg hpops) (by simp), ?_⟩
    rw [hcode]
    rfl

theorem not_hasEntry (h : ¬ HasEntry b) : instrument b = none := by
  have hpush : pushToShadowStackGS b = none := by
    cases hb : pushToShadowStackGS b with
    | none => rfl
    | some b' =>
      obtain ⟨block, hblock, hb⟩ := Option.bind_eq_some_iff.1 hb
      obtain ⟨x, hx, -⟩ := Option.bind_eq_some_iff.1 hb
      exact absurd ⟨x, by rw [hblock]; exact hx⟩ h
  unfold instrument
  rw [hpush]
  rfl

/-- The push goes in front of all the code. -/
theorem push_code (f : Function) (h : HasEntry f.toBody) : ∃ b, pushToShadowStackGS f.toBody = some b ∧
    b.code = f.newInstructions (pushCode !f.hasStackFrame) ++ f.code ∧ f.nextId ≤ b.nextId := by
  obtain ⟨x, hx⟩ := h
  obtain ⟨block, hblock, hx⟩ := Option.bind_eq_some_iff.1 hx
  have hcode : ∃ rest, f.code = x :: rest := by
    obtain ⟨tail, rfl⟩ := List.head?_eq_some_iff.1 hx
    obtain ⟨blocks, hblocks⟩ := List.head?_eq_some_iff.1 hblock
    refine ⟨tail ++ blocks.flatten, ?_⟩
    rw [Body.code, hblocks]
    rfl
  obtain ⟨rest, hcode⟩ := hcode
  have hxid : x.1 < f.nextId := f.ids x (by rw [← Body.code, hcode]; exact List.mem_cons_self)
  have hrest : ∀ y ∈ rest, y.1 ≠ x.1 := by
    have hnodup := f.nodup
    rw [← Body.code, hcode, List.map_cons, List.nodup_cons] at hnodup
    exact fun y hy heq => hnodup.1 (heq ▸ List.mem_map_of_mem hy)
  refine ⟨f.toBody.insertAll x.1 (pushCode !f.hasStackFrame) false, ?_, ?_, Nat.le_add_right _ _⟩
  · unfold pushToShadowStackGS
    rw [hblock]
    change (block.head?.bind fun instr1 => _) = _
    rw [hx]
    rfl
  · rw [code_insertAll, hcode]
    refine insertAllBefore_front (A := []) (fun _ h => nomatch h) hrest fun y hy => ?_
    have := mem_newInstructions hy
    omega

theorem visit_inserted {news : List Instruction} (h : ∀ y ∈ news, popsAt y.2 = false) (b : Body) :
    news.foldl visitInstruction b = b := by
  induction news with
  | nil => rfl
  | cons y news ih =>
    have hy : visitInstruction b y = b := by
      unfold visitInstruction
      rw [if_neg (by simp [h y List.mem_cons_self])]
    rw [List.foldl_cons, hy]
    exact ih fun y hy => h y (List.mem_cons_of_mem _ hy)

theorem hasStackFrame_push {rest : List Instruction} (hb : b.code = f.newInstructions (pushCode z) ++ rest) :
    b.hasStackFrame = true := by
  have hpush : ∃ s ∈ pushCode z, s.framesStack = true := by cases z <;> decide
  obtain ⟨s, hs, hframes⟩ := hpush
  rw [← newInstructions_ops (b := f.toBody) (pushCode z)] at hs
  obtain ⟨y, hy, rfl⟩ := List.mem_map.1 hs
  unfold Body.hasStackFrame
  rw [hb, List.any_append, List.any_eq_true.2 ⟨y, hy, hframes⟩]
  rfl

theorem weave_inserted (z : Bool) : OnlyInserted (weave z) := by
  refine ⟨fun s hs => (pushCode_inserted z s hs).1, fun _ _ hs => (nomatch hs), fun x s hs => ?_⟩
  change s ∈ (if popsAt x.2 = true then popCode false else []) at hs
  split_ifs at hs
  · exact popCode_inserted _ s hs
  · cases hs

/-- The runs of an instrumented function are those of the original with the code written in. -/
theorem instrument_runs (f : Function) (h : HasEntry f.toBody) : ∃ b, instrument f.toBody = some b ∧
    ∀ ops, Runs Semantic.next b.code b.code ops ↔
      ∃ t, Complete Semantic.next f.code t ∧ t.flatMap (weave !f.hasStackFrame).expand = ops := by
  obtain ⟨b, hpush, hcode, hnext⟩ := push_code f h
  have hops := newInstructions_ops (b := f.toBody) (pushCode !f.hasStackFrame)
  have hnew : ∀ y ∈ f.newInstructions (pushCode !f.hasStackFrame), y.2 ∈ pushCode !f.hasStackFrame :=
    fun y hy => hops ▸ List.mem_map_of_mem hy
  refine ⟨f.code.foldl visitInstruction b, ?_, ?_⟩
  · unfold instrument
    rw [hpush]
    change some (b.code.foldl visitInstruction b) = _
    rw [hcode, List.foldl_append, visit_inserted fun y hy => (pushCode_inserted _ _ (hnew y hy)).2]
  · exact runs_edited (visitInstruction_edits _ _) hcode ⟨hnext, hasStackFrame_push hcode⟩ hops
      (fun y hy => mem_newInstructions hy) (weave_inserted _)

/-! ## The paths -/

/-- What is executed on a path of the original. -/
abbrev executed (z : Bool) (t : List (Arrival × Instruction)) : List Semantic := t.flatMap (weave z).expand

theorem expand_eq (y : Arrival × Instruction) : (weave z).expand y = (if y.1 = .start then pushCode z else []) ++
    ((if popsAt y.2.2 then popCode false else []) ++ [y.2.2]) := by
  obtain ⟨a, x⟩ := y
  cases a <;> rfl

theorem not_inserted {s : Semantic} (h : s.isInserted = false) (code : List UInt8) : s ≠ ofBytes code := by
  rintro rfl
  cases h

theorem count_push (h : Original t) : (executed z t).countP isPush = t.countP (·.1 = .start) := by
  have hpush : (pushCode z).countP isPush = 1 := by cases z <;> decide
  have hpop : (popCode false).countP isPush = 0 := by decide
  induction t with
  | nil => rfl
  | cons y t ih =>
    rw [Original, List.forall_mem_cons] at h
    have hy : isPush y.2.2 = false := decide_eq_false (not_inserted h.1 _)
    rw [executed, List.flatMap_cons, List.countP_append, ih h.2, expand_eq, List.countP_append, List.countP_append]
    by_cases hstart : y.1 = .start <;> by_cases hpops : popsAt y.2.2 = true <;>
      simp [hstart, hpops, hpush, hpop, hy, Nat.add_comm]

theorem count_pop (h : Original t) : (executed z t).countP isPop = t.countP (popsAt ·.2.2) := by
  have hpush : (pushCode z).countP isPop = 0 := by cases z <;> decide
  have hpop : (popCode false).countP isPop = 1 := by decide
  induction t with
  | nil => rfl
  | cons y t ih =>
    rw [Original, List.forall_mem_cons] at h
    have hy : isPop y.2.2 = false := decide_eq_false (not_inserted h.1 _)
    rw [executed, List.flatMap_cons, List.countP_append, ih h.2, expand_eq, List.countP_append, List.countP_append]
    by_cases hstart : y.1 = .start <;> by_cases hpops : popsAt y.2.2 = true <;>
      simp [hstart, hpops, hpush, hpop, hy, Nat.add_comm]

/-- The two codes end differently. -/
theorem push_ne_pop (z z' : Bool) (front front' : List Semantic) : front ++ pushCode z ≠ front' ++ popCode z' := by
  intro h
  have hrev := congrArg (fun l => l.reverse.take 5) h
  simp only [List.reverse_append] at hrev
  rw [List.take_append_of_le_length, List.take_append_of_le_length] at hrev
  · revert hrev
    cases z <;> cases z' <;> decide
  · cases z' <;> decide
  · cases z <;> decide

/-- The pop comes last only if the last instruction is popped at. -/
theorem popsAt_last {body : List (Arrival × Instruction)} {last : Arrival × Instruction} (h : Original (body ++ [last]))
    (hstart : body = [] → last.1 = .start)
    (hlast : ∃ front z' exit, executed z (body ++ [last]) = front ++ (popCode z' ++ [exit])) :
    popsAt last.2.2 = true := by
  by_contra hpops
  obtain ⟨front, z', exit, heq⟩ := hlast
  rw [executed, List.flatMap_append, List.flatMap_singleton, expand_eq, if_neg hpops, List.nil_append,
    ← List.append_assoc, ← List.append_assoc] at heq
  have hdrop := List.append_inj_left' heq rfl
  by_cases ha : last.1 = .start
  · rw [if_pos ha] at hdrop
    exact push_ne_pop z z' _ _ hdrop
  · rw [if_neg ha, List.append_nil] at hdrop
    -- The instruction before the last one is of the original, but a pop ends with inserted code.
    rcases List.eq_nil_or_concat body with rfl | ⟨body', y, rfl⟩
    · exact ha (hstart rfl)
    · have hy : y.2.2.isInserted = false := h y (by simp)
      have hend : ((body'.concat y).flatMap (weave z).expand).getLast? = some y.2.2 := by
        simp [List.flatMap_append, expand_eq]
      have hpop : ∃ s, (popCode z').getLast? = some s ∧ s.isInserted = true := by cases z' <;> exact ⟨_, rfl, rfl⟩
      obtain ⟨s, hs, hins⟩ := hpop
      rw [hdrop, List.getLast?_append, hs, Option.some_or, Option.some.injEq] at hend
      rw [hend, hy] at hins
      cases hins

theorem lastWriter_pop (front : List Semantic) : lastWriter (front ++ popCode z) = some (ofBytes compareBytes) := by
  have hpop : (popCode z).filter Semantic.writesFlags = [ofBytes compareBytes] := by cases z <;> decide
  rw [lastWriter, List.filter_append, hpop, List.getLast?_append]
  rfl

theorem mem_lastWriter {front : List Semantic} {s : Semantic} (h : s ∈ lastWriter front) :
    s ∈ front ∧ s.writesFlags = true :=
  List.mem_filter.1 (List.mem_of_getLast? h)

/-- No inserted code writes the flags where nothing is popped. -/
theorem writer_original {body : List (Arrival × Instruction)} (h : Original body)
    (hpops : ∀ y ∈ body, popsAt y.2.2 = false) :
    ∀ s ∈ executed z body, s.writesFlags = true → s.isInserted = false := by
  have hpush : ∀ s ∈ pushCode z, s.writesFlags = false := by cases z <;> decide
  intro s hs hwrites
  obtain ⟨y, hy, hs⟩ := List.mem_flatMap.1 hs
  rw [expand_eq, hpops y hy, if_neg Bool.false_ne_true, List.nil_append, List.mem_append] at hs
  rcases hs with hs | hs
  · split_ifs at hs
    · rw [hpush s hs] at hwrites
      cases hwrites
    · cases hs
  · rw [List.mem_singleton.1 hs]
    exact h y hy

theorem flags_kept {X Y : List Semantic} (hX : ∀ s ∈ X, s.writesFlags = true → s.isInserted = false)
    (hY : ∀ s ∈ Y, s.testsFlags = false) {front rest : List Semantic} {s : Semantic} (h : X ++ Y = front ++ s :: rest)
    (hs : s.testsFlags = true) : ∀ writer ∈ lastWriter front, writer.isInserted = false := by
  intro writer hwriter
  obtain ⟨hmem, hwrites⟩ := mem_lastWriter hwriter
  rcases List.append_eq_append_iff.1 h with ⟨c, -, hc⟩ | ⟨c, hc, -⟩
  · have := hY s (hc ▸ by simp)
    rw [hs] at this
    cases this
  · exact hX writer (hc ▸ List.mem_append_left _ hmem) hwrites

/-- A path is balanced exactly when only its end is popped at, without testing flags, and it does not start again. -/
theorem balanced_iff (hstart : ∃ x t', t = (.start, x) :: t') (h : Original t) :
    Balanced (executed z t) ↔ Undisturbed t := by
  obtain ⟨x, t', ht⟩ := hstart
  have honce : t.countP (·.1 = .start) = 1 ↔ ∀ y ∈ t.tail, y.1 ≠ .start := by
    rw [ht, List.countP_cons_of_pos (by simp), List.tail_cons, Nat.add_eq_right, List.countP_eq_zero]
    simp
  obtain ⟨body, last, hsplit⟩ : ∃ body last, t = body ++ [last] := by
    rcases List.eq_nil_or_concat t with rfl | ⟨body, last, rfl⟩
    · cases ht
    · exact ⟨body, last, List.concat_eq_append⟩
  have hcount : t.countP (popsAt ·.2.2) = body.countP (popsAt ·.2.2) + if popsAt last.2.2 then 1 else 0 := by
    rw [hsplit, List.countP_append, List.countP_singleton]
  constructor
  · intro hb
    refine ⟨honce.1 (count_push h ▸ hb.pushed), body, last, hsplit, ?_⟩
    have hpops : popsAt last.2.2 = true := by
      refine popsAt_last (hsplit ▸ h) (fun hbody => ?_) (hsplit ▸ hb.last)
      rw [hsplit, hbody, List.nil_append, List.cons.injEq] at ht
      rw [ht.1]
    refine ⟨?_, hpops, ?_⟩
    · have hone := hb.popped
      rw [count_pop h, hcount, if_pos hpops, Nat.add_eq_right, List.countP_eq_zero] at hone
      exact fun y hy => by simpa using hone y hy
    · by_contra htests
      have hops : executed z t = (executed z body ++ (if last.1 = .start then pushCode z else []) ++ popCode false) ++
          last.2.2 :: [] := by
        rw [hsplit, executed, List.flatMap_append, List.flatMap_singleton, expand_eq, if_pos hpops]
        simp
      have := hb.flags _ _ _ hops (by simpa using htests) _ (lastWriter_pop _)
      cases this
  · rintro ⟨hone, body', last', hsplit', hbody, hpops, htests⟩
    obtain ⟨rfl, hlast⟩ := List.append_inj' (hsplit.symm.trans hsplit') rfl
    obtain rfl : last = last' := by simpa using hlast
    have hbodyOrig : Original body := fun y hy => h y (hsplit ▸ List.mem_append_left _ hy)
    have hops : executed z t = (executed z body ++ (if last.1 = .start then pushCode z else [])) ++
        (popCode false ++ [last.2.2]) := by
      rw [hsplit, executed, List.flatMap_append, List.flatMap_singleton, expand_eq, if_pos hpops]
      simp
    refine ⟨(count_push h).trans (honce.2 hone), ?_, ⟨_, _, _, hops⟩, ?_⟩
    · rw [count_pop h, hcount, if_pos hpops, Nat.add_eq_right, List.countP_eq_zero]
      exact fun y hy => by simp [hbody y hy]
    · intro front s rest heq hs
      refine flags_kept (fun s hs => ?_) (fun s hs => ?_) (hops.symm.trans heq) hs
      · rcases List.mem_append.1 hs with hs | hs
        · exact writer_original hbodyOrig hbody s hs
        · have hpush : ∀ s ∈ pushCode z, s.writesFlags = false := by cases z <;> decide
          split_ifs at hs
          · rw [hpush s hs]
            exact fun h => nomatch h
          · cases hs
      · have hpop : ∀ s ∈ popCode false, s.testsFlags = false := by decide
        rcases List.mem_append.1 hs with hs | hs
        · exact hpop s hs
        · rw [List.mem_singleton.1 hs]
          exact htests

/-- For every function: all its paths are balanced after the pass exactly when no path of the original that leaves
it passes an exit that stays, takes a conditional one, or jumps to the function itself. -/
theorem instrumented_balanced_iff (f : Function) :
    (∃ b, instrument f.toBody = some b ∧ ∀ ops, Runs Semantic.next b.code b.code ops → Balanced ops) ↔
      HasEntry f.toBody ∧ ∀ t, Complete Semantic.next f.code t → Undisturbed t := by
  by_cases hentry : HasEntry f.toBody
  · obtain ⟨b, hb, hruns⟩ := instrument_runs f hentry
    rw [hb]
    constructor
    · rintro ⟨b', hb', h⟩
      cases hb'
      refine ⟨hentry, fun t ht => ?_⟩
      have hrun := (hruns (executed (!f.hasStackFrame) t)).2 ⟨t, ht, rfl⟩
      exact (balanced_iff ht.eq_cons (complete_original ht)).1 (h _ hrun)
    · rintro ⟨-, h⟩
      refine ⟨b, rfl, fun ops hops => ?_⟩
      obtain ⟨t, ht, rfl⟩ := (hruns ops).1 hops
      exact (balanced_iff ht.eq_cons (complete_original ht)).2 (h t ht)
  · rw [not_hasEntry hentry]
    constructor
    · rintro ⟨b, hb, -⟩
      cases hb
    · exact fun h => absurd h.1 hentry

/-! ## A conditional tail jump -/

/-- `test`, `jne` to another function, `ret` -/
def tailFunction : Function where
  blocks := [[(0, .isolated ⟨false, false, true, false⟩), (1, .controlFlow (.conditional true) (.function 7))],
    [(2, .returnInstruction)]]
  nextId := 3
  nodup := by decide
  ids := by decide
  targets := by simp [Semantic.next, Semantic.goes]
  original := by decide

/-- The path on which the jump is not taken. -/
def stayingPath : List (Arrival × Instruction) := [.start, .fall, .fall].zip tailFunction.code

/-- On it the function is left with a second pop. -/
theorem tailFunction_not_balanced :
    ¬ ∃ b, instrument tailFunction.toBody = some b ∧ ∀ ops, Runs Semantic.next b.code b.code ops → Balanced ops := by
  rintro ⟨b, hb, h⟩
  have hentry : HasEntry tailFunction.toBody := ⟨_, rfl⟩
  obtain ⟨b', hb', hruns⟩ := instrument_runs tailFunction hentry
  obtain rfl : b = b' := Option.some.inj (hb.symm.trans hb')
  have hpath : Complete Semantic.next tailFunction.code stayingPath :=
    .fall (by decide) (.fall (by decide) (.leave (by decide)))
  have hrun := (hruns (executed (!tailFunction.hasStackFrame) stayingPath)).2 ⟨stayingPath, hpath, rfl⟩
  have hpopped := (h _ hrun).popped
  rw [count_pop (complete_original hpath)] at hpopped
  revert hpopped
  decide

end Egalito.Code.ShadowStack
