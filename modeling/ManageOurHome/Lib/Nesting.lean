import Mathlib.Data.List.Basic
import Mathlib.Data.Nat.Init

/-! @lib nesting | layer:library | family:stacks

    What is opened and closed by a stack, one step after the other: a step pops what it closes, then may push itself,
    and the end pops what is left. What is on the stack is what was pushed and has not ended; of two that were
    pushed, one ends before the other starts, or inside of it.

        stack   []  [0]  [1 0]  [2 0]  []        ends   0 ↦ 3   1 ↦ 2   2 ↦ 3 -/

namespace Nesting

/-- The stacks before each of `n` steps and after the last, innermost first. -/
structure Stacks (n : ℕ) (stack : ℕ → List ℕ) : Prop where
  start : stack 0 = []
  step : ∀ k < n, ∃ popped kept, stack k = popped ++ kept ∧ (stack (k + 1) = kept ∨ stack (k + 1) = k :: kept)

/-- Where each that was pushed ends: at the step that pops it, or after the last. -/
structure Run (n : ℕ) (stack : ℕ → List ℕ) (ends : ℕ → ℕ) : Prop extends Stacks n stack where
  pop : ∀ k < n, ∀ s ∈ stack k, s ∉ stack (k + 1) → ends s = k
  finish : ∀ s ∈ stack n, ends s = n

variable {n k s t : ℕ} {stack : ℕ → List ℕ} {ends : ℕ → ℕ}

/-- A stack holds steps before it, the last of them innermost. -/
theorem Stacks.sorted (h : Stacks n stack) (hk : k ≤ n) : (stack k).Pairwise (· > ·) ∧ ∀ s ∈ stack k, s < k := by
  induction k with
  | zero =>
    rw [h.start]
    exact ⟨.nil, by simp⟩
  | succ k ih =>
    obtain ⟨hsorted, hlt⟩ := ih (Nat.le_of_succ_le hk)
    obtain ⟨popped, kept, hstack, hnext⟩ := h.step k hk
    rw [hstack] at hsorted hlt
    have hkept : ∀ s ∈ kept, s < k := fun s hs => hlt s (List.mem_append_right _ hs)
    have hsorted := (List.pairwise_append.mp hsorted).2.1
    rcases hnext with hnext | hnext
    · rw [hnext]
      exact ⟨hsorted, fun s hs => Nat.lt_succ_of_lt (hkept s hs)⟩
    · rw [hnext]
      refine ⟨List.pairwise_cons.mpr ⟨hkept, hsorted⟩, fun s hs => ?_⟩
      rcases List.mem_cons.mp hs with rfl | hs
      · exact Nat.lt_succ_self _
      · exact Nat.lt_succ_of_lt (hkept s hs)

/-- What is still on the stack after a step lies below what the step popped. -/
theorem Stacks.lt_of_popped (h : Stacks n stack) (hk : k < n) (hs : s ∈ stack k) (hpopped : s ∉ stack (k + 1))
    (ht : t ∈ stack (k + 1)) (htk : t < k) : t < s := by
  have hsorted := (h.sorted (Nat.le_of_lt hk)).1
  obtain ⟨popped, kept, hstack, hnext⟩ := h.step k hk
  rw [hstack] at hsorted hs
  have hkept : ∀ i, i ∈ kept → i ∈ stack (k + 1) := fun i hi => by
    rcases hnext with hnext | hnext
    · exact hnext ▸ hi
    · exact hnext ▸ List.mem_cons_of_mem _ hi
  have htkept : t ∈ kept := by
    rcases hnext with hnext | hnext
    · exact hnext ▸ ht
    · rw [hnext] at ht
      exact (List.mem_cons.mp ht).resolve_left (Nat.ne_of_lt htk)
  have hin := (List.mem_append.mp hs).resolve_right fun hs => hpopped (hkept s hs)
  exact (List.pairwise_append.mp hsorted).2.2 s hin t htkept

/-- What is on a stack has not ended, and ends. -/
theorem Run.le_ends (h : Run n stack ends) (hk : k ≤ n) (hs : s ∈ stack k) : k ≤ ends s ∧ ends s ≤ n := by
  induction hk using Nat.decreasingInduction with
  | self => exact ⟨Nat.le_of_eq (h.finish s hs).symm, Nat.le_of_eq (h.finish s hs)⟩
  | of_succ k hk ih =>
    by_cases hkept : s ∈ stack (k + 1)
    · exact ⟨Nat.le_of_succ_le (ih hkept).1, (ih hkept).2⟩
    · rw [h.pop k hk s hs hkept]
      exact ⟨Nat.le_refl _, Nat.le_of_lt hk⟩

/-- What was pushed is on the stack up to its end. -/
theorem Run.mem_iff (h : Run n stack ends) (hpush : s ∈ stack (s + 1)) (hlt : s < k) (hk : k ≤ n) :
    s ∈ stack k ↔ k ≤ ends s := by
  refine ⟨fun hs => (h.le_ends hk hs).1, fun hle => ?_⟩
  induction k, hlt using Nat.le_induction with
  | base => exact hpush
  | succ k hlt ih =>
    by_contra hpopped
    rw [h.pop k hk s (ih (Nat.le_of_succ_le hk) (Nat.le_of_succ_le hle)) hpopped] at hle
    exact Nat.not_succ_le_self k hle

/-- What starts inside of another ends inside of it. -/
theorem Run.nested (h : Run n stack ends) (hs : s ∈ stack (s + 1)) (ht : t ∈ stack (t + 1)) (htn : t < n)
    (hst : s < t) (hin : t < ends s) : ends t ≤ ends s := by
  by_contra hlt
  rw [Nat.not_le] at hlt
  have hkn : ends s < n := Nat.lt_of_lt_of_le hlt (h.le_ends htn ht).2
  have hsopen := (h.mem_iff hs (Nat.lt_trans hst hin) (Nat.le_of_lt hkn)).mpr (Nat.le_refl _)
  have htopen := (h.mem_iff ht (Nat.lt_succ_of_lt hin) hkn).mpr hlt
  have hpopped : s ∉ stack (ends s + 1) := fun hstill => Nat.not_succ_le_self _ (h.le_ends hkn hstill).1
  exact Nat.lt_asymm hst (h.lt_of_popped hkn hsopen hpopped htopen hin)

/-! ### The outermost -/

/-- Visits what is marked from `pos` on, and goes on past the end of what it visits. -/
def visit (marked : ℕ → Bool) (ends : ℕ → ℕ) (hi pos : ℕ) : List ℕ :=
  if pos < hi then
    if marked pos then pos :: visit marked ends hi (max (ends pos) pos + 1) else visit marked ends hi (pos + 1)
  else []
  termination_by hi - pos

/-- Not inside of one that is marked, from `lo` on. -/
def free (marked : ℕ → Bool) (ends : ℕ → ℕ) (lo s : ℕ) : Bool :=
  !(List.range' lo (s - lo)).any fun t => marked t && decide (s < ends t)

/-- What is marked in `[lo, hi)`, and inside of no other. -/
def outermost (marked : ℕ → Bool) (ends : ℕ → ℕ) (lo hi : ℕ) : List ℕ :=
  (List.range' lo (hi - lo)).filter fun s => marked s && free marked ends lo s

section Outermost

variable {marked : ℕ → Bool} {lo hi hi' pos : ℕ}

theorem visit_end (h : hi ≤ pos) : visit marked ends hi pos = [] := by
  rw [visit, if_neg (Nat.not_lt.mpr h)]

theorem visit_marked (hpos : pos < hi) (h : marked pos = true) :
    visit marked ends hi pos = pos :: visit marked ends hi (max (ends pos) pos + 1) := by
  rw [visit, if_pos hpos, if_pos h]

theorem visit_unmarked (hpos : pos < hi) (h : marked pos = false) :
    visit marked ends hi pos = visit marked ends hi (pos + 1) := by
  rw [visit, if_pos hpos, if_neg (by rw [h]; exact Bool.false_ne_true)]

/-- The rule of such walks. -/
theorem visit_induction (marked : ℕ → Bool) (ends : ℕ → ℕ) (hi : ℕ) {P : ℕ → Prop} (hend : ∀ pos, hi ≤ pos → P pos)
    (hmarked : ∀ pos, pos < hi → marked pos = true → P (max (ends pos) pos + 1) → P pos)
    (hunmarked : ∀ pos, pos < hi → marked pos = false → P (pos + 1) → P pos) (pos : ℕ) : P pos := by
  induction hn : hi - pos using Nat.strong_induction_on generalizing pos with
  | _ n ih =>
    by_cases hpos : pos < hi
    · cases hkind : marked pos with
      | true => exact hmarked pos hpos hkind (ih _ (by omega) _ rfl)
      | false => exact hunmarked pos hpos hkind (ih _ (by omega) _ rfl)
    · exact hend pos (Nat.not_lt.mp hpos)

/-- What is visited is marked, and comes after the end of what was visited before. -/
theorem visit_spec (hi pos : ℕ) : (visit marked ends hi pos).Pairwise (fun s t => max (ends s) s < t) ∧
    ∀ s ∈ visit marked ends hi pos, pos ≤ s ∧ s < hi ∧ marked s = true := by
  induction pos using visit_induction marked ends hi with
  | hend pos hpos =>
    rw [visit_end hpos]
    exact ⟨.nil, by simp⟩
  | hmarked pos hpos h ih =>
    rw [visit_marked hpos h]
    refine ⟨List.pairwise_cons.mpr ⟨fun t ht => (ih.2 t ht).1, ih.1⟩, fun s hs => ?_⟩
    rcases List.mem_cons.mp hs with rfl | hs
    · exact ⟨Nat.le_refl _, hpos, h⟩
    · obtain ⟨hle, hrest⟩ := ih.2 s hs
      exact ⟨by omega, hrest⟩
  | hunmarked pos hpos h ih =>
    rw [visit_unmarked hpos h]
    refine ⟨ih.1, fun s hs => ?_⟩
    obtain ⟨hle, hrest⟩ := ih.2 s hs
    exact ⟨by omega, hrest⟩

theorem free_iff : free marked ends lo s = true ↔ ∀ t, lo ≤ t → t < s → marked t = true → ends t ≤ s := by
  rw [free, Bool.not_eq_true', List.any_eq_false]
  constructor
  · intro h t hlo hlt hmarked
    have hnot := h t (List.mem_range'_1.mpr ⟨hlo, by omega⟩)
    rw [hmarked, Bool.true_and, decide_eq_true_iff] at hnot
    exact Nat.not_lt.mp hnot
  · intro h t ht
    obtain ⟨hlo, hlt⟩ := List.mem_range'_1.mp ht
    rw [Bool.and_eq_true, decide_eq_true_iff]
    rintro ⟨hmarked, hin⟩
    have hle := h t hlo (by omega) hmarked
    omega

theorem mem_outermost : s ∈ outermost marked ends lo hi ↔
    lo ≤ s ∧ s < hi ∧ marked s = true ∧ ∀ t, lo ≤ t → t < s → marked t = true → ends t ≤ s := by
  rw [outermost, List.mem_filter, List.mem_range'_1, Bool.and_eq_true, free_iff]
  constructor
  · rintro ⟨⟨hlo, hlt⟩, hrest⟩
    exact ⟨hlo, by omega, hrest⟩
  · rintro ⟨hlo, hlt, hrest⟩
    exact ⟨⟨hlo, by omega⟩, hrest⟩

/-- Nothing of a range that ends at `mid` is found: it may be left out. -/
theorem filter_range'_skip {P : ℕ → Bool} {mid : ℕ} (hpos : pos ≤ mid)
    (h : ∀ i, pos ≤ i → i < mid → i < hi → P i = false) :
    (List.range' pos (hi - pos)).filter P = (List.range' mid (hi - mid)).filter P := by
  have hnone : ∀ n, pos + n ≤ mid → pos + n ≤ hi → (List.range' pos n).filter P = [] := by
    intro n hmid hhi
    refine List.filter_eq_nil_iff.mpr fun i hi => ?_
    obtain ⟨hge, hlt⟩ := List.mem_range'_1.mp hi
    rw [h i hge (by omega) (by omega)]
    exact Bool.false_ne_true
  by_cases hle : mid ≤ hi
  · have hsplit : List.range' pos (hi - pos) = List.range' pos (mid - pos) ++ List.range' mid (hi - mid) := by
      have hmid : pos + (mid - pos) = mid := by omega
      have hlength : hi - pos = (mid - pos) + (hi - mid) := by omega
      rw [hlength, ← List.range'_append_1, hmid]
    rw [hsplit, List.filter_append, hnone _ (by omega) (by omega), List.nil_append]
  · have hzero : hi - mid = 0 := by omega
    rw [hzero]
    by_cases hle' : pos ≤ hi
    · exact hnone _ (by omega) (by omega)
    · have hzero' : hi - pos = 0 := by omega
      rw [hzero']
      rfl

/-- The walk visits the outermost, unless one ends where another starts: it misses that one. -/
theorem visit_eq_outermost_iff (hself : ∀ s, marked s = true → s ≤ ends s)
    (hnested : ∀ s t, marked s = true → marked t = true → s < t → t < ends s → ends t ≤ ends s) :
    visit marked ends hi lo = outermost marked ends lo hi ↔
      ∀ s ∈ outermost marked ends lo hi, ∀ t ∈ outermost marked ends lo hi, s < t → ends s ≠ t := by
  constructor
  · intro h s hs t ht hst heq
    rw [← h] at hs ht
    have hsorted : (visit marked ends hi lo).Pairwise fun s t => max (ends s) s < t := (visit_spec hi lo).1
    obtain ⟨i, hi, rfl⟩ := List.mem_iff_getElem.mp hs
    obtain ⟨j, hj, rfl⟩ := List.mem_iff_getElem.mp ht
    rcases Nat.lt_trichotomy i j with hij | rfl | hij
    · have hlt := List.pairwise_iff_getElem.mp hsorted i j hi hj hij
      omega
    · exact Nat.lt_irrefl _ hst
    · have hlt := List.pairwise_iff_getElem.mp hsorted j i hj hi hij
      omega
  · intro h
    -- Before `pos` nothing goes past it, and what is left is what is free.
    have hwalk : ∀ pos, lo ≤ pos → (∀ t, lo ≤ t → t < pos → t < hi → marked t = true → ends t ≤ pos) →
        visit marked ends hi pos =
          (List.range' pos (hi - pos)).filter fun s => marked s && free marked ends lo s := by
      intro pos
      induction pos using visit_induction marked ends hi with
      | hend pos hpos =>
        intro _ _
        rw [visit_end hpos, Nat.sub_eq_zero_of_le hpos]
        rfl
      | hunmarked pos hpos hmark ih =>
        intro hlo hpast
        have hskip : ∀ i, pos ≤ i → i < pos + 1 → i < hi → (marked i && free marked ends lo i) = false := by
          intro i hge hlt _
          obtain rfl : i = pos := by omega
          rw [hmark, Bool.false_and]
        rw [visit_unmarked hpos hmark, ih (by omega) fun t ht hlt hhi htmark => ?_,
          filter_range'_skip (Nat.le_succ pos) hskip]
        rcases Nat.lt_succ_iff_lt_or_eq.mp hlt with hlt | rfl
        · exact Nat.le_succ_of_le (hpast t ht hlt hhi htmark)
        · rw [hmark] at htmark
          cases htmark
      | hmarked pos hpos hmark ih =>
        intro hlo hpast
        have hle := hself pos hmark
        have hpast' : ∀ t, lo ≤ t → t < pos → marked t = true → ends t ≤ pos := fun t ht hlt =>
          hpast t ht hlt (Nat.lt_trans hlt hpos)
        have hin : pos ∈ outermost marked ends lo hi := mem_outermost.mpr ⟨hlo, hpos, hmark, hpast'⟩
        -- Nothing that starts up to the end of `pos` goes past it.
        have hinside : ∀ t, lo ≤ t → t < ends pos → marked t = true → ends t ≤ ends pos := by
          intro t ht hlt htmark
          rcases Nat.lt_trichotomy t pos with hbefore | rfl | hafter
          · exact Nat.le_trans (hpast' t ht hbefore htmark) hle
          · exact Nat.le_refl _
          · exact hnested pos t hmark htmark hafter hlt
        have hlast : pos < ends pos → ends pos < hi → marked (ends pos) = false := by
          intro hlt hhi
          refine Bool.eq_false_iff.mpr fun hmark' => ?_
          exact h pos hin (ends pos) (mem_outermost.mpr ⟨by omega, hhi, hmark', hinside⟩) hlt rfl
        have hskip : ∀ i, pos + 1 ≤ i → i < ends pos + 1 → i < hi → (marked i && free marked ends lo i) = false := by
          intro i hge hlt hhi
          rw [Bool.and_eq_false_iff]
          rcases Nat.lt_succ_iff_lt_or_eq.mp hlt with hlt | rfl
          · refine .inr (Bool.eq_false_iff.mpr fun hfree => ?_)
            have hend := free_iff.mp hfree pos hlo hge hmark
            omega
          · exact .inl (hlast hge hhi)
        have hrest : hi - pos = hi - (pos + 1) + 1 := by omega
        rw [Nat.max_eq_left hle] at ih
        rw [visit_marked hpos hmark, Nat.max_eq_left hle, ih (by omega) fun t ht hlt hhi htmark => ?_, hrest,
          List.range'_succ, List.filter_cons_of_pos (by rw [hmark, free_iff.mpr hpast']; rfl),
          filter_range'_skip (Nat.succ_le_succ hle) hskip]
        rcases Nat.lt_succ_iff_lt_or_eq.mp hlt with hlt | rfl
        · exact Nat.le_succ_of_le (hinside t ht hlt htmark)
        · rcases Nat.eq_or_lt_of_le hle with heq | hlt
          · rw [← heq]
            omega
          · rw [hlast hlt hhi] at htmark
            cases htmark
    rw [hwalk lo (Nat.le_refl lo) fun t ht hlt => by omega, outermost]

/-- A longer walk goes on with what is further. -/
theorem visit_append (hle : hi ≤ hi') (pos : ℕ) :
    ∃ rest, visit marked ends hi' pos = visit marked ends hi pos ++ rest ∧ ∀ s ∈ rest, hi ≤ s := by
  induction pos using visit_induction marked ends hi with
  | hend pos hpos =>
    rw [visit_end hpos]
    exact ⟨_, rfl, fun s hs => Nat.le_trans hpos ((visit_spec hi' pos).2 s hs).1⟩
  | hmarked pos hpos h ih =>
    obtain ⟨rest, hrest, hge⟩ := ih
    refine ⟨rest, ?_, hge⟩
    rw [visit_marked hpos h, visit_marked (Nat.lt_of_lt_of_le hpos hle) h, hrest]
    rfl
  | hunmarked pos hpos h ih =>
    rw [visit_unmarked hpos h, visit_unmarked (Nat.lt_of_lt_of_le hpos hle) h]
    exact ih


/-- Up to one that it visits, a walk that ends after that one visits the same. -/
theorem visit_succ {l rest : List ℕ} (hlt : s < hi) (h : visit marked ends hi pos = l ++ s :: rest) :
    visit marked ends (s + 1) pos = l ++ [s] := by
  obtain ⟨further, hvisit, hge⟩ : ∃ rest, visit marked ends hi pos = visit marked ends (s + 1) pos ++ rest ∧
    ∀ t ∈ rest, s + 1 ≤ t := visit_append (Nat.succ_le_of_lt hlt) pos
  have hsorted : (visit marked ends hi pos).Pairwise fun s t => max (ends s) s < t := (visit_spec hi pos).1
  rw [h] at hsorted
  obtain ⟨-, hlast, hfirst⟩ := List.pairwise_append.mp hsorted
  have hkeep : ∀ l : List ℕ, (∀ t ∈ l, t < s + 1) → l.filter (fun t => decide (t < s + 1)) = l := fun l hl =>
    List.filter_eq_self.mpr fun t ht => decide_eq_true (hl t ht)
  have hdrop : ∀ l : List ℕ, (∀ t ∈ l, s + 1 ≤ t) → l.filter (fun t => decide (t < s + 1)) = [] := fun l hl =>
    List.filter_eq_nil_iff.mpr fun t ht => by rw [decide_eq_true_iff]; exact Nat.not_lt.mpr (hl t ht)
  calc visit marked ends (s + 1) pos
      = (visit marked ends hi pos).filter fun t => decide (t < s + 1) := by
        rw [hvisit, List.filter_append, hkeep _ fun t ht => ((visit_spec (s + 1) pos).2 t ht).2.1, hdrop _ hge,
          List.append_nil]
    _ = l ++ [s] := by
        have hbefore : ∀ t ∈ l ++ [s], t < s + 1 := by
          intro t ht
          rcases List.mem_append.mp ht with ht | ht
          · have hin := hfirst t ht s List.mem_cons_self
            omega
          · rw [List.mem_singleton.mp ht]
            exact Nat.lt_succ_self s
        have hafter : ∀ t ∈ rest, s + 1 ≤ t := by
          intro t ht
          have hin := (List.pairwise_cons.mp hlast).1 t ht
          omega
        rw [h, List.append_cons, List.filter_append, hkeep _ hbefore, hdrop _ hafter, List.append_nil]
/-- The outermost up to one of them. -/
theorem outermost_succ (h : s ∈ outermost marked ends lo hi) :
    outermost marked ends lo (s + 1) = outermost marked ends lo s ++ [s] := by
  obtain ⟨hlo, -, hmark, hfree⟩ := mem_outermost.mp h
  have hrange : List.range' lo (s + 1 - lo) = List.range' lo (s - lo) ++ [s] := by
    have hsucc : s + 1 - lo = s - lo + 1 := by omega
    have hlast : lo + (s - lo) = s := by omega
    rw [hsucc, List.range'_1_concat, hlast]
  rw [outermost, outermost, hrange, List.filter_append,
    List.filter_cons_of_pos (by rw [hmark, free_iff.mpr hfree]; rfl), List.filter_nil]

end Outermost

end Nesting
