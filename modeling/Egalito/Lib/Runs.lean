import Egalito.Lib.Ordered
/-!
# Runs of pages

A sorted list of pages, each `d` long, is merged into its maximal runs: pages
that lie directly one behind the other.
-/

namespace Egalito.Lib

/-- How far the run from `address` goes, and what is left of the pages. -/
def takeRun (d address : Nat) : Nat → List Nat → Nat × List Nat
  | size, page :: rest => if page = address + size then takeRun d address (size + d) rest else (size, page :: rest)
  | size, [] => (size, [])

def runs (d : Nat) : Nat → List Nat → List (Nat × Nat)
  | fuel + 1, page :: rest =>
    let run := takeRun d page 0 (page :: rest)
    (page, run.1) :: runs d fuel run.2
  | _, _ => []

/-- The pages of a run. -/
def pagesIn (d : Nat) (run : Nat × Nat) : List Nat := (List.range (run.2 / d)).map fun k => run.1 + d * k

variable {d address size fuel : Nat} {l : List Nat}

theorem takeRun_spec (d address : Nat) (l : List Nat) (size : Nat) :
    ∃ n, l = (List.range n).map (fun k => address + size + d * k) ++ (takeRun d address size l).2 ∧
      (takeRun d address size l).1 = size + d * n ∧
      (takeRun d address size l).2.head? ≠ some (address + (takeRun d address size l).1) := by
  induction l generalizing size with
  | nil => exact ⟨0, by simp [takeRun]⟩
  | cons page rest ih =>
    unfold takeRun
    split
    case isTrue hpage =>
      obtain ⟨n, hrest, hsize, hhead⟩ := ih (size + d)
      refine ⟨n + 1, ?_, by rw [hsize, Nat.mul_succ]; omega, hhead⟩
      rw [List.range_succ_eq_map, List.map_cons, List.map_map, List.cons_append, Nat.mul_zero, Nat.add_zero, ← hpage]
      congr 1
      rw [hpage]
      refine hrest.trans (congrArg (· ++ _) (List.map_congr_left fun k _ => ?_))
      simp only [Function.comp_apply, Nat.mul_succ]
      omega
    case isFalse hpage => exact ⟨0, by simp, by simp, by simpa using hpage⟩

/-- What one turn of the loop does: the run from the first page is not empty, and no page follows it. -/
theorem takeRun_cons (hd : 0 < d) {page : Nat} {rest : List Nat}
    (hl : (page :: rest).Pairwise fun x y => x + d ≤ y) :
    pagesIn d (page, (takeRun d page 0 (page :: rest)).1) ++ (takeRun d page 0 (page :: rest)).2 = page :: rest ∧
    0 < (takeRun d page 0 (page :: rest)).1 ∧ d ∣ (takeRun d page 0 (page :: rest)).1 ∧
    ∀ x ∈ (takeRun d page 0 (page :: rest)).2, page + (takeRun d page 0 (page :: rest)).1 < x := by
  obtain ⟨n, hsplit, hsize, hhead⟩ := takeRun_spec d page (page :: rest) 0
  generalize htake : takeRun d page 0 (page :: rest) = run at hsplit hsize hhead ⊢
  obtain ⟨size, left⟩ := run
  dsimp only at hsplit hsize hhead ⊢
  rw [Nat.zero_add] at hsize
  have hn : 0 < n := by
    by_contra hzero
    have hn0 : n = 0 := by omega
    subst hn0
    rw [hsize] at hhead
    rw [List.range_zero, List.map_nil, List.nil_append] at hsplit
    rw [← hsplit] at hhead
    exact hhead rfl
  have hpages : pagesIn d (page, size) = (List.range n).map fun k => page + 0 + d * k := by
    unfold pagesIn
    rw [hsize, Nat.mul_div_cancel_left n hd]
    rfl
  refine ⟨by rw [hpages, ← hsplit], by rw [hsize]; exact Nat.mul_pos hd hn, ⟨n, hsize⟩, ?_⟩
  -- The last page of the run ends where the next one must not start.
  rw [hsplit, List.pairwise_append] at hl
  have hlast : page + 0 + d * (n - 1) ∈ (List.range n).map fun k => page + 0 + d * k :=
    List.mem_map.2 ⟨n - 1, List.mem_range.2 (by omega), rfl⟩
  have hend : page + 0 + d * (n - 1) + d = page + size := by
    have hmul : d * (n - 1) + d = d * n := by rw [← Nat.mul_succ, Nat.succ_eq_add_one, Nat.sub_add_cancel hn]
    omega
  have hge : ∀ x ∈ left, page + size ≤ x := fun x hx => hend ▸ hl.2.2 _ hlast x hx
  cases left with
  | nil => exact fun _ h => nomatch h
  | cons y left =>
    have hy : page + size < y := by
      have hle := hge y List.mem_cons_self
      have hne : y ≠ page + size := fun heq => hhead (by rw [heq]; rfl)
      omega
    refine List.forall_mem_cons.2 ⟨hy, fun x hx => ?_⟩
    have hxy := List.rel_of_pairwise_cons hl.2.1 hx
    omega

structure MaximalRuns (d : Nat) (l : List Nat) (runs : List (Nat × Nat)) : Prop where
  pages : runs.flatMap (pagesIn d) = l
  sizes : ∀ r ∈ runs, 0 < r.2 ∧ d ∣ r.2
  apart : runs.Pairwise fun r r' => r.1 + r.2 < r'.1

theorem runs_nil (d : Nat) : MaximalRuns d [] [] := ⟨rfl, fun _ h => (nomatch h), .nil⟩

theorem runs_spec (hd : 0 < d) (hl : l.Pairwise fun x y => x + d ≤ y) (hfuel : l.length ≤ fuel) :
    MaximalRuns d l (runs d fuel l) := by
  induction fuel generalizing l with
  | zero =>
    have hnil : l = [] := List.length_eq_zero_iff.1 (by omega)
    subst hnil
    exact runs_nil d
  | succ fuel ih =>
    cases l with
    | nil => exact runs_nil d
    | cons page rest =>
      obtain ⟨hpages, hpos, hdvd, hbehind⟩ := takeRun_cons hd hl
      unfold runs
      dsimp only
      generalize takeRun d page 0 (page :: rest) = run at hpages hpos hdvd hbehind ⊢
      obtain ⟨size, left⟩ := run
      have hlength := congrArg List.length hpages
      simp only [List.length_append, List.length_cons] at hlength
      have hsize : 0 < (pagesIn d (page, size)).length := by
        unfold pagesIn
        rw [List.length_map, List.length_range]
        exact Nat.div_pos (Nat.le_of_dvd hpos hdvd) hd
      have hleft : left.Pairwise fun x y => x + d ≤ y := by
        rw [← hpages, List.pairwise_append] at hl
        exact hl.2.1
      rw [List.length_cons] at hfuel
      have hruns := ih hleft (by omega)
      refine ⟨by rw [List.flatMap_cons, hruns.pages, hpages], List.forall_mem_cons.2 ⟨⟨hpos, hdvd⟩, hruns.sizes⟩, ?_⟩
      refine .cons (fun r hr => hbehind r.1 ?_) hruns.apart
      rw [← hruns.pages]
      obtain ⟨hrpos, hrdvd⟩ := hruns.sizes r hr
      refine List.mem_flatMap.2 ⟨r, hr, List.mem_map.2 ⟨0, List.mem_range.2 ?_, by simp⟩⟩
      exact Nat.div_pos (Nat.le_of_dvd hrpos hrdvd) hd

namespace MaximalRuns

variable {rs : List (Nat × Nat)} {r r' : Nat × Nat} {page : Nat}

theorem mem_pagesIn (hd : 0 < d) (hsize : d ∣ r.2) :
    page ∈ pagesIn d r ↔ ∃ k, page = r.1 + d * k ∧ page < r.1 + r.2 := by
  obtain ⟨n, hn⟩ := hsize
  unfold pagesIn
  rw [hn, Nat.mul_div_cancel_left n hd, List.mem_map]
  constructor
  · rintro ⟨k, hk, rfl⟩
    have hlt := Nat.mul_lt_mul_of_pos_left (List.mem_range.1 hk) hd
    exact ⟨k, rfl, by omega⟩
  · rintro ⟨k, rfl, hlt⟩
    exact ⟨k, List.mem_range.2 (Nat.lt_of_mul_lt_mul_left (show d * k < d * n by omega)), rfl⟩

/-- A page is used exactly if it lies in a run. -/
theorem mem_iff (h : MaximalRuns d l rs) (hd : 0 < d) :
    page ∈ l ↔ ∃ r ∈ rs, ∃ k, page = r.1 + d * k ∧ page < r.1 + r.2 := by
  rw [← h.pages, List.mem_flatMap]
  constructor
  · rintro ⟨r, hr, hpage⟩
    exact ⟨r, hr, (mem_pagesIn hd (h.sizes r hr).2).1 hpage⟩
  · rintro ⟨r, hr, hpage⟩
    exact ⟨r, hr, (mem_pagesIn hd (h.sizes r hr).2).2 hpage⟩

theorem start_mem (h : MaximalRuns d l rs) (hd : 0 < d) (hr : r ∈ rs) : r.1 ∈ l :=
  (h.mem_iff hd).2 ⟨r, hr, 0, by simp, Nat.lt_add_of_pos_right (h.sizes r hr).1⟩

theorem apart_of_ne (h : MaximalRuns d l rs) (hr : r ∈ rs) (hr' : r' ∈ rs) (hne : r ≠ r') :
    r.1 + r.2 < r'.1 ∨ r'.1 + r'.2 < r.1 := by
  obtain ⟨front, back, rfl⟩ := List.append_of_mem hr
  have hapart := h.apart
  rw [List.pairwise_append, List.pairwise_cons] at hapart
  rcases List.mem_append.1 hr' with hr' | hr'
  · exact .inr (hapart.2.2 r' hr' r List.mem_cons_self)
  · exact .inl (hapart.2.1.1 r' ((List.mem_cons.1 hr').resolve_left hne.symm))

theorem nodup (h : MaximalRuns d l rs) : rs.Nodup := by
  refine List.Pairwise.imp_of_mem (fun {r r'} _ hr' hlt => ?_) h.apart
  rintro rfl
  have hpos := (h.sizes _ hr').1
  omega

/-- No page follows a run. -/
theorem end_notMem (h : MaximalRuns d l rs) (hd : 0 < d) (hr : r ∈ rs) : r.1 + r.2 ∉ l := by
  intro hmem
  obtain ⟨r', hr', k, hk, hlt⟩ := (h.mem_iff hd).1 hmem
  have hne : r ≠ r' := by
    rintro rfl
    exact Nat.lt_irrefl _ hlt
  rcases h.apart_of_ne hr hr' hne with hlt' | hlt'
  · omega
  · have hpos := (h.sizes r hr).1
    omega

/-- No page stands right before a run. -/
theorem before_notMem (h : MaximalRuns d l rs) (hd : 0 < d) (hr : r ∈ rs) (hpage : page + d = r.1) : page ∉ l := by
  intro hmem
  obtain ⟨r', hr', k, hk, hlt⟩ := (h.mem_iff hd).1 hmem
  have hne : r ≠ r' := by
    rintro rfl
    omega
  obtain ⟨n, hn⟩ := (h.sizes r' hr').2
  have hle : d * (k + 1) ≤ r'.2 := by
    rw [hn]
    exact Nat.mul_le_mul_left d (Nat.lt_of_mul_lt_mul_left (show d * k < d * n by omega))
  rw [Nat.mul_succ] at hle
  rcases h.apart_of_ne hr hr' hne with hlt' | hlt' <;> omega

end MaximalRuns

/-- Of the lists for the elements only one is not empty. -/
theorem flatMap_eq_of_mem {α β : Type} {l : List α} {x : α} {g : α → List β} (hnodup : l.Nodup) (hx : x ∈ l)
    (hg : ∀ y ∈ l, y ≠ x → g y = []) : l.flatMap g = g x := by
  obtain ⟨front, back, rfl⟩ := List.append_of_mem hx
  rw [List.nodup_append, List.nodup_cons] at hnodup
  have hfront : front.flatMap g = [] := List.flatMap_eq_nil_iff.2 fun y hy =>
    hg y (List.mem_append_left _ hy) (hnodup.2.2 y hy x List.mem_cons_self)
  have hback : back.flatMap g = [] := List.flatMap_eq_nil_iff.2 fun y hy =>
    hg y (List.mem_append_right _ (List.mem_cons_of_mem _ hy)) fun heq => hnodup.2.1.1 (heq ▸ hy)
  rw [List.flatMap_append, List.flatMap_cons, hfront, hback, List.nil_append, List.append_nil]

end Egalito.Lib
