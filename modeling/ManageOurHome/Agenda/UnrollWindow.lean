import ManageOurHome.Agenda.Unroll
import ManageOurHome.Lib.Grouped

/-! @src apps/api/src/agenda/recurrence.rs | layer:proof | family:recurrence

    What the unroll returns, against the window it is meant to return. The loop's memory is exact: an
    instant comes again only within an hour of itself, after a gap. What it loses is what its early
    stop cuts off: an instant inside the window, behind one already past it. -/

namespace Home.Agenda

variable {paris : Paris} {walk : Walk}

/-! ### The walk -/

theorem Walk.wall_lt (walk : Walk) {i j : ℕ} {w w' : ℤ} (hij : i < j) (hi : walk.wall i = some w)
    (hj : walk.wall j = some w') : w < w' := by
  induction j generalizing w' with
  | zero => omega
  | succ j ih =>
    obtain ⟨v, hv⟩ : ∃ v, walk.wall j = some v := by
      rcases hv : walk.wall j with _ | v
      · exact absurd (hj.symm.trans (walk.ended j hv)) (by simp)
      · exact ⟨v, rfl⟩
    have hlt := walk.increasing j v w' hv hj
    rcases Nat.lt_succ_iff_lt_or_eq.mp hij with h | rfl
    · exact (ih h hv).trans hlt
    · obtain rfl := Option.some.inj (hi.symm.trans hv)
      exact hlt

theorem Walk.instant_eq_some {i : ℕ} {x : ℤ} :
    walk.instant paris i = some x ↔ ∃ w, walk.wall i = some w ∧ paris.resolve w = x := by
  rw [Walk.instant, Option.map_eq_some_iff]

/-- An instant comes less than an hour before any that came ahead of it. -/
theorem Walk.instant_lt {i j : ℕ} {x y : ℤ} (hij : i < j) (hi : walk.instant paris i = some x)
    (hj : walk.instant paris j = some y) : x < y + hour := by
  obtain ⟨w, hw, rfl⟩ := Walk.instant_eq_some.mp hi
  obtain ⟨w', hw', rfl⟩ := Walk.instant_eq_some.mp hj
  have := paris.resolve_lt_add_shift (walk.wall_lt hij hw hw')
  have := paris.shift_eq
  omega

/-- An instant that comes twice follows a gap. -/
theorem Walk.followsASkippedHour_of_eq {i j : ℕ} {x : ℤ} (hij : i < j)
    (hi : walk.instant paris i = some x) (hj : walk.instant paris j = some x) :
    paris.followsASkippedHour x = true := by
  obtain ⟨w, hw, rfl⟩ := Walk.instant_eq_some.mp hi
  obtain ⟨w', hw', heq⟩ := Walk.instant_eq_some.mp hj
  rw [followsASkippedHour_eq, ← heq]
  exact Zone.followsGap_of_resolve_eq (walk.wall_lt hij hw hw') heq.symm

/-- The first `n` instants of the walk. -/
def Walk.produced (paris : Paris) (walk : Walk) (n : ℕ) : List ℤ :=
  (List.range n).filterMap (walk.instant paris)

theorem Walk.mem_produced {n : ℕ} {x : ℤ} :
    x ∈ walk.produced paris n ↔ ∃ i < n, walk.instant paris i = some x := by
  simp [Walk.produced, List.mem_filterMap]

theorem Walk.produced_succ (n : ℕ) :
    walk.produced paris (n + 1) = walk.produced paris n ++ (walk.instant paris n).toList := by
  rw [Walk.produced, List.range_succ, List.filterMap_append, Walk.produced]
  rcases h : walk.instant paris n with _ | x <;> simp [h]

/-! ### The window -/

section Window

variable (paris) (walk) (count : Option ℕ) (after before : ℤ)

/-- Whether `x` lies in the window. -/
def inWindow (x : ℤ) : Bool := after ≤ x ∧ x ≤ before

/-- The distinct instants among the first `n`, in order. -/
def Walk.distinct (n : ℕ) : List ℤ := (walk.produced paris n).eraseDups

/-- The first `MAX_OCCURRENCES` in the window of the first `COUNT` distinct instants, among the first
    `n` of the walk. -/
def Walk.window (n : ℕ) : List ℤ :=
  ((count.elim (walk.distinct paris n) fun c => (walk.distinct paris n).take c).filter
    (inWindow after before)).take MAX_OCCURRENCES

/-- `dates` is the window of the whole walk. -/
def Walk.IsWindow (dates : List ℤ) : Prop :=
  ∃ n, ∀ m, n ≤ m → walk.window paris count after before m = dates

/-- The `j`-th instant belongs to the window: new, counted, inside it, and within the cap. -/
def Walk.Lists (j : ℕ) (x : ℤ) : Prop :=
  walk.instant paris j = some x ∧ x ∉ walk.produced paris j ∧
    (count.all fun c => (walk.distinct paris j).length < c) ∧
    ((walk.distinct paris j).filter (inWindow after before)).length < MAX_OCCURRENCES ∧
    after ≤ x ∧ x ≤ before

end Window

section

variable {count : Option ℕ} {after before : ℤ}

theorem Walk.distinct_succ (n : ℕ) : walk.distinct paris (n + 1) =
    match walk.instant paris n with
    | some x => if x ∈ walk.produced paris n then walk.distinct paris n
        else walk.distinct paris n ++ [x]
    | none => walk.distinct paris n := by
  rw [Walk.distinct, Walk.produced_succ]
  rcases walk.instant paris n with _ | x
  · simp [Walk.distinct]
  · exact Grouped.eraseDups_concat _ _

theorem Walk.nodup_distinct (n : ℕ) : (walk.distinct paris n).Nodup := Grouped.nodup_eraseDups _

/-- The window grows by what it lists, and by nothing else. -/
theorem Walk.window_succ_of_lists {n : ℕ} {x : ℤ} (h : walk.Lists paris count after before n x) :
    walk.window paris count after before (n + 1) = walk.window paris count after before n ++ [x] := by
  obtain ⟨hx, hnew, hcount, hcap, hin⟩ := h
  have hwin : inWindow after before x = true := decide_eq_true hin
  rw [Walk.window, Walk.window, Walk.distinct_succ, hx]
  simp only [if_neg hnew]
  have htake : ∀ l : List ℤ, l.length ≤ (walk.distinct paris n).length + 1 →
      (count.elim l fun c => l.take c) = l := by
    intro l hl
    rcases count with _ | c
    · rfl
    · have : (walk.distinct paris n).length < c := by simpa using hcount
      exact List.take_of_length_le (by omega)
  rw [htake _ (by simp), htake _ (by omega), List.filter_append, List.filter_cons_of_pos hwin,
    List.filter_nil, List.take_of_length_le (by simp; omega), List.take_of_length_le (by omega)]

theorem Walk.window_succ_of_not_lists {n : ℕ} (h : ∀ x, ¬walk.Lists paris count after before n x) :
    walk.window paris count after before (n + 1) = walk.window paris count after before n := by
  rw [Walk.window, Walk.window, Walk.distinct_succ]
  rcases hx : walk.instant paris n with _ | x
  · rfl
  · simp only
    split
    · rfl
    · rename_i hnew
      by_cases hcount : count.all fun c => (walk.distinct paris n).length < c
      · have htake : ∀ l : List ℤ, l.length ≤ (walk.distinct paris n).length + 1 →
            (count.elim l fun c => l.take c) = l := by
          intro l hl
          rcases count with _ | c
          · rfl
          · have : (walk.distinct paris n).length < c := by simpa using hcount
            exact List.take_of_length_le (by omega)
        rw [htake _ (by simp), htake _ (by omega), List.filter_append]
        rcases hwin : inWindow after before x with _ | _
        · rw [List.filter_cons_of_neg (by simp [hwin]), List.filter_nil, List.append_nil]
        · have hfull : MAX_OCCURRENCES ≤
              ((walk.distinct paris n).filter (inWindow after before)).length := by
            by_contra hlt
            exact h x ⟨hx, hnew, hcount, not_le.mp hlt, of_decide_eq_true hwin⟩
          rw [List.take_append_of_le_length hfull]
      · rcases count with _ | c
        · exact absurd rfl hcount
        · have hle : c ≤ (walk.distinct paris n).length := by simpa using hcount
          simp only [Option.elim_some]
          rw [List.take_append_of_le_length hle]

theorem Walk.window_mono {n m : ℕ} (h : n ≤ m) : (walk.window paris count after before n).length ≤
    (walk.window paris count after before m).length := by
  induction m, h using Nat.le_induction with
  | base => exact le_refl _
  | succ m _ ih =>
    by_cases hl : ∃ x, walk.Lists paris count after before m x
    · obtain ⟨x, hx⟩ := hl
      rw [Walk.window_succ_of_lists hx, List.length_append]
      omega
    · rw [Walk.window_succ_of_not_lists (not_exists.mp hl)]
      exact ih

/-- A prefix's window is the whole walk's when nothing after it belongs to the window. -/
theorem Walk.isWindow_iff {n : ℕ} :
    walk.IsWindow paris count after before (walk.window paris count after before n) ↔
      ∀ j x, n ≤ j → ¬walk.Lists paris count after before j x := by
  constructor
  · rintro ⟨m, hm⟩ j x hj hx
    have hlast := hm (max m (j + 1)) (le_max_left _ _)
    have hgrow := @Walk.window_mono paris walk count after before _ _ (le_max_right m (j + 1))
    have hmono := @Walk.window_mono paris walk count after before _ _ hj
    rw [hlast, Walk.window_succ_of_lists hx, List.length_append, List.length_singleton] at hgrow
    omega
  · intro h
    refine ⟨n, fun m hm => ?_⟩
    induction m, hm using Nat.le_induction with
    | base => rfl
    | succ m hm ih => rw [Walk.window_succ_of_not_lists fun x => h m x hm, ih]

end

/-! ### The loop -/

/-- What the loop knows after the first `i` instants. -/
structure Unrolled (paris : Paris) (walk : Walk) (count : Option ℕ) (after before : ℤ) (i : ℕ)
    (s : Unrolling) : Prop where
  consumed : ∀ j < i, walk.instant paris j ≠ none
  distinct : s.distinct = (walk.distinct paris i).length
  counted : count.all fun c => (walk.distinct paris i).length ≤ c
  dates : s.dates = (walk.distinct paris i).filter (inWindow after before)
  capped : s.dates.length ≤ MAX_OCCURRENCES
  short : ∀ x ∈ walk.produced paris i, x ≤ before
  seen : ∀ x ∈ s.producedAfterAGap.seen, x ∈ walk.produced paris i
  kept : ∀ x ∈ walk.produced paris i, paris.followsASkippedHour x = true →
    x ∈ s.producedAfterAGap.seen ∨ ∃ y ∈ walk.produced paris i, x + 2 * hour < y
  latest : ∀ x ∈ s.producedAfterAGap.seen, ∃ l, s.producedAfterAGap.latest = some l ∧ x ≤ l

section Loop

variable {count : Option ℕ} {after before : ℤ} {i : ℕ} {s : Unrolling}

theorem unrolled_start : Unrolled paris walk count after before 0 Unrolling.start where
  consumed j h := absurd h (Nat.not_lt_zero j)
  distinct := rfl
  counted := by rcases count with _ | c <;> simp [Walk.distinct, Walk.produced]
  dates := rfl
  capped := Nat.zero_le _
  short x h := absurd h List.not_mem_nil
  seen x h := absurd h (Finset.notMem_empty x)
  kept x h := absurd h List.not_mem_nil
  latest x h := absurd h (Finset.notMem_empty x)

theorem Unrolled.window (h : Unrolled paris walk count after before i s) :
    s.dates = walk.window paris count after before i := by
  have htake : (count.elim (walk.distinct paris i) fun c => (walk.distinct paris i).take c)
      = walk.distinct paris i := by
    rcases count with _ | c
    · rfl
    · exact List.take_of_length_le (by simpa using h.counted)
  rw [Walk.window, htake, ← h.dates, List.take_of_length_le h.capped]

/-- The memory tells the first time an instant comes, and stays exact. -/
theorem Unrolled.firstTime (h : Unrolled paris walk count after before i s) {x : ℤ}
    (hx : walk.instant paris i = some x) :
    ((s.producedAfterAGap.firstTime paris x).2 = true ↔ x ∉ walk.produced paris i) ∧
    (∀ y ∈ (s.producedAfterAGap.firstTime paris x).1.seen, y ∈ walk.produced paris (i + 1)) ∧
    (∀ y ∈ walk.produced paris (i + 1), paris.followsASkippedHour y = true →
      y ∈ (s.producedAfterAGap.firstTime paris x).1.seen ∨
        ∃ z ∈ walk.produced paris (i + 1), y + 2 * hour < z) ∧
    (∀ y ∈ (s.producedAfterAGap.firstTime paris x).1.seen, ∃ l,
      (s.producedAfterAGap.firstTime paris x).1.latest = some l ∧ y ≤ l) := by
  have hmem : ∀ y, y ∈ walk.produced paris (i + 1) ↔ y ∈ walk.produced paris i ∨ y = x := fun y => by
    rw [Walk.produced_succ, hx, List.mem_append, Option.toList_some, List.mem_singleton]
  have hgap : ∀ y ∈ walk.produced paris i, y = x → paris.followsASkippedHour x = true := by
    rintro y hy rfl
    obtain ⟨j, hj, hy⟩ := Walk.mem_produced.mp hy
    exact Walk.followsASkippedHour_of_eq hj hy hx
  rcases hf : paris.followsASkippedHour x with _ | _
  · -- away from any gap: always the first time, and the memory may be forgotten
    have hnew : x ∉ walk.produced paris i := fun hy => by
      rw [hgap x hy rfl] at hf
      exact absurd hf (by simp)
    have hsplit : s.producedAfterAGap.firstTime paris x
        = if s.producedAfterAGap.latest.any fun latest => latest + 2 * hour < x
          then (⟨∅, none⟩, true) else (s.producedAfterAGap, true) := by
      rw [ProducedAfterAGap.firstTime, hf]
      rfl
    have hkeep : ∀ y ∈ walk.produced paris (i + 1), paris.followsASkippedHour y = true →
        y ∈ walk.produced paris i := fun y hy hyf => by
      rcases (hmem y).mp hy with hy | rfl
      · exact hy
      · exact absurd (hyf.symm.trans hf) (by simp)
    rw [hsplit]
    split
    · rename_i hfar
      refine ⟨by simp [hnew], fun y hy => absurd hy (Finset.notMem_empty y), fun y hy hyf => ?_,
        fun y hy => absurd hy (Finset.notMem_empty y)⟩
      right
      rcases h.kept y (hkeep y hy hyf) hyf with hseen | ⟨z, hz, hlt⟩
      · obtain ⟨l, hl, hle⟩ := h.latest y hseen
        rw [hl, Option.any_some, decide_eq_true_iff] at hfar
        exact ⟨x, (hmem x).mpr (Or.inr rfl), by omega⟩
      · exact ⟨z, (hmem z).mpr (Or.inl hz), hlt⟩
    · refine ⟨by simp [hnew], fun y hy => (hmem y).mpr (Or.inl (h.seen y hy)), fun y hy hyf => ?_,
        h.latest⟩
      refine (h.kept y (hkeep y hy hyf) hyf).imp_right ?_
      rintro ⟨z, hz, hlt⟩
      exact ⟨z, (hmem z).mpr (Or.inl hz), hlt⟩
  · -- after a gap: the first time is the first time it is seen
    have hsplit : s.producedAfterAGap.firstTime paris x
        = (⟨insert x s.producedAfterAGap.seen,
            some (s.producedAfterAGap.latest.elim x fun latest => max latest x)⟩,
          decide (x ∉ s.producedAfterAGap.seen)) := by
      rw [ProducedAfterAGap.firstTime, hf]
      rfl
    have hiff : x ∈ s.producedAfterAGap.seen ↔ x ∈ walk.produced paris i := by
      refine ⟨h.seen x, fun hy => ?_⟩
      rcases h.kept x hy hf with hseen | ⟨z, hz, hlt⟩
      · exact hseen
      · -- forgotten: the walk was two hours past it, and cannot come back
        obtain ⟨j, hj, hz⟩ := Walk.mem_produced.mp hz
        have := Walk.instant_lt hj hz hx
        have := hour_pos
        omega
    rw [hsplit]
    simp only [decide_eq_true_eq, hiff, Finset.mem_insert]
    refine ⟨trivial, fun y hy => ?_, fun y hy hyf => ?_, fun y hy => ⟨_, rfl, ?_⟩⟩
    · rcases hy with rfl | hy
      · exact (hmem y).mpr (Or.inr rfl)
      · exact (hmem y).mpr (Or.inl (h.seen y hy))
    · rcases (hmem y).mp hy with hy | rfl
      · rcases h.kept y hy hyf with hseen | ⟨z, hz, hlt⟩
        · exact Or.inl (Or.inr hseen)
        · exact Or.inr ⟨z, (hmem z).mpr (Or.inl hz), hlt⟩
      · exact Or.inl (Or.inl rfl)
    · rcases hy with rfl | hy
      · rcases s.producedAfterAGap.latest with _ | l
        · exact le_refl _
        · exact le_max_right _ _
      · obtain ⟨l, hl, hle⟩ := h.latest y hy
        rw [hl]
        exact hle.trans (le_max_left _ _)

/-- What the loop has when it ends, after `m` instants. -/
structure UnrollEnds (paris : Paris) (walk : Walk) (count : Option ℕ) (after before : ℤ) (m : ℕ)
    (dates : List ℤ) : Prop where
  consumed : ∀ j < m, walk.instant paris j ≠ none
  window : dates = walk.window paris count after before m
  nodup : dates.Nodup
  short : ∀ j x, j + 1 < m → walk.instant paris j = some x → x ≤ before
  why : (∀ j x, m ≤ j → ¬walk.Lists paris count after before j x) ∨
    ∃ j x, j < m ∧ walk.instant paris j = some x ∧ before < x

theorem Unrolled.nodup (h : Unrolled paris walk count after before i s) : s.dates.Nodup := by
  rw [h.dates]
  exact (Walk.nodup_distinct i).filter _

/-- With no break, what ends the loop is that the window lists nothing more. -/
theorem Unrolled.ends (h : Unrolled paris walk count after before i s)
    (hwhy : ∀ j x, i ≤ j → ¬walk.Lists paris count after before j x) :
    UnrollEnds paris walk count after before i s.dates where
  consumed := h.consumed
  window := h.window
  nodup := h.nodup
  short j x hj hx := h.short x (Walk.mem_produced.mpr ⟨j, by omega, hx⟩)
  why := Or.inl hwhy

theorem Walk.distinct_mono {n m : ℕ} (h : n ≤ m) :
    (walk.distinct paris n).length ≤ (walk.distinct paris m).length ∧
    ((walk.distinct paris n).filter (inWindow after before)).length ≤
      ((walk.distinct paris m).filter (inWindow after before)).length := by
  induction m, h using Nat.le_induction with
  | base => exact ⟨le_refl _, le_refl _⟩
  | succ m _ ih =>
    rw [Walk.distinct_succ]
    rcases walk.instant paris m with _ | x
    · exact ih
    · simp only
      split
      · exact ih
      · rw [List.filter_append, List.length_append, List.length_append]
        omega

theorem Walk.instant_none_of_le {n m : ℕ} (h : n ≤ m) (hn : walk.instant paris n = none) :
    walk.instant paris m = none := by
  induction m, h using Nat.le_induction with
  | base => exact hn
  | succ m _ ih =>
    rw [Walk.instant, Option.map_eq_none_iff] at ih ⊢
    exact walk.ended m ih

/-- STEP: one more instant, neither a copy nor past the window. -/
theorem Unrolled.step (h : Unrolled paris walk count after before i s) {x : ℤ}
    (hx : walk.instant paris i = some x) (hnew : x ∉ walk.produced paris i)
    (hcap : s.dates.length < MAX_OCCURRENCES) (hcount : count.all fun c => s.distinct < c)
    (hle : x ≤ before) :
    Unrolled paris walk count after before (i + 1)
      ⟨(s.producedAfterAGap.firstTime paris x).1, s.distinct + 1,
        if after ≤ x ∧ x ≤ before then s.dates ++ [x] else s.dates⟩ := by
  obtain ⟨_, hseen, hkept, hlatest⟩ := h.firstTime hx
  have hdistinct : walk.distinct paris (i + 1) = walk.distinct paris i ++ [x] := by
    rw [Walk.distinct_succ, hx]
    exact if_neg hnew
  refine ⟨fun j hj => ?_, ?_, ?_, ?_, ?_, fun y hy => ?_, hseen, hkept, hlatest⟩
  · rcases Nat.lt_succ_iff_lt_or_eq.mp hj with hj | rfl
    · exact h.consumed j hj
    · rw [hx]; simp
  · rw [hdistinct, List.length_append, h.distinct]
    rfl
  · rw [hdistinct, List.length_append, ← h.distinct]
    rcases count with _ | c
    · rfl
    · simpa [Nat.succ_le_iff] using hcount
  · rw [hdistinct, List.filter_append, ← h.dates]
    by_cases hin : after ≤ x ∧ x ≤ before
    · have hwin : inWindow after before x = true := decide_eq_true hin
      rw [if_pos hin, List.filter_cons_of_pos hwin, List.filter_nil]
    · rw [if_neg hin, List.filter_cons_of_neg (by simpa [inWindow] using hin), List.filter_nil,
        List.append_nil]
  · show (if after ≤ x ∧ x ≤ before then s.dates ++ [x] else s.dates).length ≤ _
    split
    · rw [List.length_append]
      exact hcap
    · exact h.capped
  · rw [Walk.produced_succ, hx, List.mem_append, Option.toList_some, List.mem_singleton] at hy
    rcases hy with hy | rfl
    · exact h.short y hy
    · exact hle

/-- STEP: a copy changes nothing but the memory. -/
theorem Unrolled.step_copy (h : Unrolled paris walk count after before i s) {x : ℤ}
    (hx : walk.instant paris i = some x) (hold : x ∈ walk.produced paris i) :
    Unrolled paris walk count after before (i + 1)
      { s with producedAfterAGap := (s.producedAfterAGap.firstTime paris x).1 } := by
  obtain ⟨_, hseen, hkept, hlatest⟩ := h.firstTime hx
  have hdistinct : walk.distinct paris (i + 1) = walk.distinct paris i := by
    rw [Walk.distinct_succ, hx]
    exact if_pos hold
  refine ⟨fun j hj => ?_, ?_, ?_, ?_, h.capped, fun y hy => ?_, hseen, hkept, hlatest⟩
  · rcases Nat.lt_succ_iff_lt_or_eq.mp hj with hj | rfl
    · exact h.consumed j hj
    · rw [hx]; simp
  · rw [hdistinct]; exact h.distinct
  · rw [hdistinct]; exact h.counted
  · rw [hdistinct]; exact h.dates
  · rw [Walk.produced_succ, hx, List.mem_append, Option.toList_some, List.mem_singleton] at hy
    rcases hy with hy | rfl
    · exact h.short y hy
    · exact h.short y hold

/-- RUN: with turns enough, the loop ends. -/
theorem Unrolled.run {K : ℕ} (hK : ∀ j x, K ≤ j → walk.instant paris j = some x → before < x) :
    ∀ (fuel i : ℕ) (s : Unrolling), Unrolled paris walk count after before i s → K + 1 < i + fuel →
      ∃ m dates, unroll paris count after before (walk.instant paris) fuel i s = some dates ∧
        UnrollEnds paris walk count after before m dates := by
  intro fuel
  induction fuel with
  | zero =>
    intro i s h hfuel
    -- the `K`-th instant is behind, and it is past the window
    obtain ⟨x, hx⟩ := Option.ne_none_iff_exists'.mp (h.consumed K (by omega))
    have := hK K x (le_refl K) hx
    have := h.short x (Walk.mem_produced.mpr ⟨K, by omega, hx⟩)
    omega
  | succ fuel ih =>
    intro i s h hfuel
    rw [unroll]
    by_cases hgo : s.dates.length < MAX_OCCURRENCES ∧ (count.all fun n => s.distinct < n)
    · rw [if_pos hgo]
      rcases hx : walk.instant paris i with _ | x
      · refine ⟨i, s.dates, rfl, h.ends fun j y hj hy => ?_⟩
        exact absurd ((Walk.instant_none_of_le hj hx).symm.trans hy.1) (by simp)
      · obtain ⟨hfirst, _⟩ := h.firstTime hx
        rcases hf : (s.producedAfterAGap.firstTime paris x).2 with _ | _
        · simp only [hf, Bool.not_false, if_true]
          have hold : x ∈ walk.produced paris i := by
            by_contra hnew
            exact absurd (hf.symm.trans (hfirst.mpr hnew)) (by simp)
          exact ih (i + 1) _ (h.step_copy hx hold) (by omega)
        · simp only [hf, Bool.not_true, Bool.false_eq_true, if_false]
          have hnew := hfirst.mp hf
          by_cases hpast : before < x
          · rw [if_pos hpast, if_neg (fun hin => absurd hin.2 (not_le.mpr hpast))]
            refine ⟨i + 1, s.dates, rfl, fun j hj => ?_, ?_, h.nodup, fun j y hj hy => ?_,
              Or.inr ⟨i, x, Nat.lt_succ_self i, hx, hpast⟩⟩
            · rcases Nat.lt_succ_iff_lt_or_eq.mp hj with hj | rfl
              · exact h.consumed j hj
              · rw [hx]; simp
            · rw [h.window, Walk.window_succ_of_not_lists]
              rintro y ⟨hy, _, _, _, _, hle⟩
              obtain rfl := Option.some.inj (hx.symm.trans hy)
              omega
            · exact h.short y (Walk.mem_produced.mpr ⟨j, by omega, hy⟩)
          · rw [if_neg hpast]
            exact ih (i + 1) _ (h.step hx hnew hgo.1 hgo.2 (not_lt.mp hpast)) (by omega)
    · rw [if_neg hgo]
      refine ⟨i, s.dates, rfl, h.ends fun j y hj hy => hgo ?_⟩
      obtain ⟨_, _, hcount, hcap, _⟩ := hy
      obtain ⟨hdistinct, hwindow⟩ := @Walk.distinct_mono paris walk after before _ _ hj
      refine ⟨by rw [h.dates]; omega, ?_⟩
      rcases count with _ | c
      · rfl
      · rw [h.distinct]
        simp only [Option.all_some, decide_eq_true_eq] at hcount ⊢
        omega

end Loop

/-! ### The unroll -/

theorem Walk.wall_ge (walk : Walk) {w : ℤ} (h : walk.wall 0 = some w) :
    ∀ {i : ℕ} {v : ℤ}, walk.wall i = some v → w + i ≤ v := by
  intro i
  induction i with
  | zero =>
    intro v hv
    obtain rfl := Option.some.inj (h.symm.trans hv)
    simp
  | succ i ih =>
    intro v hv
    rcases hu : walk.wall i with _ | u
    · exact absurd (hv.symm.trans (walk.ended i hu)) (by simp)
    · have := ih hu
      have := walk.increasing i u v hu hv
      push_cast
      omega

/-- The unroll returns: its turns are enough for the loop to end. -/
theorem unroll_ends (paris : Paris) (walk : Walk) (count : Option ℕ) (after before : ℤ) :
    ∃ m dates, unroll paris count after before (walk.instant paris) (walk.turns paris before) 0
        Unrolling.start = some dates ∧
      walkOccurrences paris count walk after before = dates ∧
      UnrollEnds paris walk count after before m dates := by
  obtain ⟨K, hK, hturns⟩ : ∃ K : ℕ, (∀ j x, K ≤ j → walk.instant paris j = some x → before < x) ∧
      K + 1 < 0 + walk.turns paris before := by
    rcases hw : walk.wall 0 with _ | w
    · refine ⟨0, fun j x hj hx => ?_, by simp only [Walk.turns, hw]; omega⟩
      have hnone : walk.instant paris 0 = none := by rw [Walk.instant, hw]; rfl
      exact absurd ((Walk.instant_none_of_le hj hnone).symm.trans hx) (by simp)
    · refine ⟨(before + paris.width - w).toNat + 1, fun j x hj hx => ?_, by
        simp only [Walk.turns, hw]; omega⟩
      obtain ⟨v, hv, rfl⟩ := Walk.instant_eq_some.mp hx
      have := walk.wall_ge hw hv
      have := paris.resolve_bound v
      omega
  obtain ⟨m, dates, hrun, hends⟩ := Unrolled.run hK _ 0 _ unrolled_start hturns
  exact ⟨m, dates, hrun, by rw [walkOccurrences, hrun]; rfl, hends⟩

theorem Walk.lifted_instant_of_some {count : Option ℕ} {i : ℕ} {x : ℤ}
    (h : (walk.lifted count).instant paris i = some x) : walk.instant paris i = some x := by
  rcases count with _ | c
  · exact h
  · obtain ⟨w, hw, rfl⟩ := Walk.instant_eq_some.mp h
    simp only [Walk.lifted, Option.isSome_some, if_true, Walk.take] at hw
    split at hw
    · exact Walk.instant_eq_some.mpr ⟨w, hw, rfl⟩
    · exact absurd hw (by simp)

theorem Walk.lifted_instant {count : Option ℕ} {i : ℕ} (h : count.isSome → i < u32Max) :
    (walk.lifted count).instant paris i = walk.instant paris i := by
  rcases count with _ | c
  · rfl
  · simp only [Walk.lifted, Option.isSome_some, if_true, Walk.instant, Walk.take, if_pos (h rfl)]

theorem Walk.lifted_produced {count : Option ℕ} {n : ℕ} (h : count.isSome → n ≤ u32Max) :
    (walk.lifted count).produced paris n = walk.produced paris n := by
  refine List.filterMap_congr fun i hi => Walk.lifted_instant fun hc => ?_
  exact (List.mem_range.mp hi).trans_le (h hc)

/-- What the unroll loses: an instant of the window that comes behind a skipped wall clock already
    past it, or, under `COUNT`, after as many as the lifted count allows. -/
def Walk.Loses (paris : Paris) (walk : Walk) (count : Option ℕ) (after before : ℤ) : Prop :=
  ∃ j x, walk.Lists paris count after before j x ∧
    ((∃ i w, i < j ∧ walk.wall i = some w ∧ paris.earliest w = none ∧ before < paris.resolve w) ∨
      (count.isSome ∧ u32Max ≤ j))

/-- CORRECT: the unroll returns each instant once, and returns exactly the window unless it loses an
    instant of it. -/
theorem unroll_window (paris : Paris) (walk : Walk) (count : Option ℕ) (after before : ℤ) :
    (occurrencesIn paris count walk after before).Nodup ∧
    (walk.IsWindow paris count after before (occurrencesIn paris count walk after before) ↔
      ¬walk.Loses paris count after before) := by
  obtain ⟨m, dates, _, heq, hends⟩ := unroll_ends paris (walk.lifted count) count after before
  rw [occurrencesIn, heq]
  refine ⟨hends.nodup, ?_⟩
  have hm : count.isSome → m ≤ u32Max := fun hc => by
    by_contra hlt
    refine hends.consumed u32Max (not_le.mp hlt) ?_
    obtain ⟨c, rfl⟩ := Option.isSome_iff_exists.mp hc
    simp [Walk.lifted, Walk.instant, Walk.take]
  have hlists : ∀ j x, (count.isSome → j < u32Max) →
      ((walk.lifted count).Lists paris count after before j x ↔
        walk.Lists paris count after before j x) := fun j x hj => by
    have hprod := @Walk.lifted_produced paris walk count j fun hc => (hj hc).le
    rw [Walk.Lists, Walk.Lists, Walk.distinct, Walk.distinct, hprod, Walk.lifted_instant hj]
  have hdates : dates = walk.window paris count after before m := by
    rw [hends.window]
    simp only [Walk.window, Walk.distinct, Walk.lifted_produced hm]
  rw [hdates, Walk.isWindow_iff]
  constructor
  · rintro hnone ⟨j, x, hx, hwhy⟩
    refine hnone j x ?_ hx
    rcases hwhy with ⟨i, w, hij, hw, _, hpast⟩ | ⟨hc, hj⟩
    · -- the loop would have run past the window before `j`
      by_contra hlt
      have hi : (walk.lifted count).instant paris i = some (paris.resolve w) := by
        rw [Walk.lifted_instant fun hc => by have := hm hc; omega]
        exact Walk.instant_eq_some.mpr ⟨w, hw, rfl⟩
      have := hends.short i _ (by omega) hi
      omega
    · exact (hm hc).trans hj
  · intro hkeeps j x hj hx
    refine hkeeps ⟨j, x, hx, ?_⟩
    by_cases hcount : count.isSome → j < u32Max
    · left
      rcases hends.why with hnone | ⟨i, y, hi, hy, hpast⟩
      · exact absurd ((hlists j x hcount).mpr hx) (hnone j x hj)
      · obtain ⟨w, hw, rfl⟩ := Walk.instant_eq_some.mp (Walk.lifted_instant_of_some hy)
        obtain ⟨w', hw', hres⟩ := Walk.instant_eq_some.mp hx.1
        have hle := hx.2.2.2.2.2
        refine ⟨i, w, by omega, hw, ?_, hpast⟩
        rcases paris.resolve_order (walk.wall_lt (by omega) hw hw') with hlt | ⟨hskip, _⟩
        · omega
        · exact hskip
    · push Not at hcount
      exact Or.inr hcount

/-- Every 45 minutes from 01:30 on 2026-03-29, Paris time. -/
def everyFortyFive : Walk where
  wall i := some (20541 * day + 90 * minute + i * (45 * minute))
  ended i h := absurd h (by simp)
  increasing i w w' h h' := by
    have hpos : 0 < 45 * minute := by decide
    obtain rfl := Option.some.inj h
    obtain rfl := Option.some.inj h'
    push_cast
    linarith

/-- Listed until 01:10Z, the series loses its occurrence at 01:00Z: 02:15, skipped, comes before it
    and resolves to 01:15Z. -/
theorem unroll_loses_past_gap :
    ¬∀ (paris : Paris) (walk : Walk) (count : Option ℕ) (after before : ℤ),
      walk.IsWindow paris count after before (occurrencesIn paris count walk after before) := by
  intro h
  have hwindow := h europeParis everyFortyFive none (20541 * day) (20541 * day + 70 * minute)
  rw [(unroll_window _ _ _ _ _).2] at hwindow
  refine hwindow ⟨2, 20541 * day + 60 * minute, ⟨by decide, by decide, rfl, by decide, by decide, by decide⟩,
    Or.inl ⟨1, 20541 * day + 135 * minute, by decide, by decide, by decide, by decide⟩⟩

end Home.Agenda
