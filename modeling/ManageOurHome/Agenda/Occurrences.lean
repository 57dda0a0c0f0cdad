import ManageOurHome.Agenda.Recurrence
import ManageOurHome.Agenda.UnrollWindow

/-! @src apps/api/src/agenda/recurrence.rs, reminders.rs | layer:proof | family:recurrence

    What an unroll lists, occurrence by occurrence. The three kinds of series go through one walk, over a window wider
    by a margin, and put each instant of it somewhere.

                      margin       placed
        hour-bound    a second     where it is
        second pass   and an hour  on the second pass, kept when in the window
        all-day       none         at the midnight of its day -/

namespace Home.Agenda

variable {paris : Paris} {walk : Walk} {count : Option ℕ} {after before after' before' x : ℤ}

/-! ### The walk -/

/-- `x` belongs to the window, and nothing that comes ahead of it lies past the window. -/
def Walk.Reaches (paris : Paris) (walk : Walk) (count : Option ℕ) (after before x : ℤ) : Prop :=
  ∃ j, walk.Lists paris count after before j x ∧ ∀ i < j, ∀ y, walk.instant paris i = some y → y ≤ before

theorem Walk.mem_window {n : ℕ} : x ∈ walk.window paris count after before n ↔
    ∃ j < n, walk.Lists paris count after before j x := by
  induction n with
  | zero =>
    refine iff_of_false ?_ (by simp)
    rcases count with _ | c <;> simp [Walk.window, Walk.distinct, Walk.produced]
  | succ n ih =>
    have hsplit : (∃ j < n + 1, walk.Lists paris count after before j x) ↔
        (∃ j < n, walk.Lists paris count after before j x) ∨ walk.Lists paris count after before n x := by
      constructor
      · rintro ⟨j, hj, hlists⟩
        rcases Nat.lt_succ_iff_lt_or_eq.mp hj with hlt | rfl
        · exact .inl ⟨j, hlt, hlists⟩
        · exact .inr hlists
      · rintro (⟨j, hj, hlists⟩ | hlists)
        · exact ⟨j, hj.trans n.lt_succ_self, hlists⟩
        · exact ⟨n, n.lt_succ_self, hlists⟩
    rw [hsplit, ← ih]
    by_cases hl : ∃ y, walk.Lists paris count after before n y
    · obtain ⟨y, hy⟩ := hl
      rw [Walk.window_succ_of_lists hy, List.mem_append, List.mem_singleton]
      refine or_congr_right ⟨?_, fun hx => Option.some.inj (hx.1.symm.trans hy.1)⟩
      rintro rfl
      exact hy
    · rw [Walk.window_succ_of_not_lists (not_exists.mp hl)]
      exact (or_iff_left (not_exists.mp hl x)).symm

/-- The unroll lists what it reaches. -/
theorem mem_walkOccurrences :
    x ∈ walkOccurrences paris count walk after before ↔ walk.Reaches paris count after before x := by
  obtain ⟨m, dates, -, heq, hends⟩ := unroll_ends paris walk count after before
  rw [heq, hends.window, Walk.mem_window]
  constructor
  · rintro ⟨j, hj, hlists⟩
    exact ⟨j, hlists, fun i hi y hy => hends.short i y (by omega) hy⟩
  · rintro ⟨j, hlists, hahead⟩
    refine ⟨j, ?_, hlists⟩
    by_contra hj
    rcases hends.why with hnone | ⟨i, y, hi, hy, hpast⟩
    · exact hnone j x (not_lt.mp hj) hlists
    · exact absurd (hahead i (by omega) y hy) (not_le.mpr hpast)

/-- Reached from a window, reached from a later one: less comes before it there. -/
theorem Walk.Reaches.later (h : walk.Reaches paris count after before x) (hafter : after ≤ after')
    (hbefore : before ≤ before') (hx : after' ≤ x) : walk.Reaches paris count after' before' x := by
  obtain ⟨j, ⟨hj, hnew, hcount, hcap, hge, hle⟩, hahead⟩ := h
  refine ⟨j, ⟨hj, hnew, hcount, lt_of_le_of_lt ?_ hcap, hx, hle.trans hbefore⟩, fun i hi y hy => ?_⟩
  · rw [← List.countP_eq_length_filter, ← List.countP_eq_length_filter]
    refine List.countP_mono_left fun y hy hin => ?_
    have hproduced : y ∈ walk.produced paris j := List.mem_eraseDups.mp hy
    obtain ⟨i, hi, hyi⟩ := Walk.mem_produced.mp hproduced
    have hin' : after' ≤ y ∧ y ≤ before' := by simpa [inWindow] using hin
    have hwithin : after ≤ y ∧ y ≤ before := ⟨hafter.trans hin'.1, hahead i hi y hyi⟩
    simpa [inWindow] using hwithin
  · exact (hahead i hi y hy).trans hbefore

theorem Walk.Reaches.mem (h : walk.Reaches paris count after before x) : after ≤ x ∧ x ≤ before := by
  obtain ⟨j, hlists, -⟩ := h
  exact hlists.2.2.2.2

/-- The `j`-th instant of the walk is one of the series: new, and counted. -/
def Walk.Counts (paris : Paris) (walk : Walk) (count : Option ℕ) (j : ℕ) (x : ℤ) : Prop :=
  walk.instant paris j = some x ∧ x ∉ walk.produced paris j ∧
    (count.all fun c => (walk.distinct paris j).length < c) = true

/-- The instants of the walk come in order. -/
def Walk.Ordered (paris : Paris) (walk : Walk) : Prop :=
  ∀ i j x y, i < j → walk.instant paris i = some x → walk.instant paris j = some y → x < y

/-- RUN: and so does what is kept of them. -/
theorem Walk.Ordered.distinct_pairwise (h : walk.Ordered paris) (n : ℕ) : (walk.distinct paris n).Pairwise (· < ·) := by
  induction n with
  | zero => exact List.Pairwise.nil
  | succ n ih =>
    rw [Walk.distinct_succ]
    cases hx : walk.instant paris n with
    | none => exact ih
    | some x =>
      simp only
      split
      · exact ih
      · refine List.pairwise_append.mpr ⟨ih, List.pairwise_singleton _ _, fun y hy z hz => ?_⟩
        rw [List.mem_singleton.mp hz]
        obtain ⟨i, hi, hyi⟩ := Walk.mem_produced.mp (List.mem_eraseDups.mp hy)
        exact h i n y x hi hyi hx

theorem Walk.Ordered.walkOccurrences_pairwise (h : walk.Ordered paris) :
    (walkOccurrences paris count walk after before).Pairwise (· < ·) := by
  obtain ⟨m, dates, -, heq, hends⟩ := unroll_ends paris walk count after before
  rw [heq, hends.window, Walk.window]
  refine List.Pairwise.take (List.Pairwise.filter _ ?_)
  cases count with
  | none => exact h.distinct_pairwise m
  | some c => exact (h.distinct_pairwise m).take

/-- Nothing of an ordered walk is produced twice. -/
theorem Walk.Ordered.notMem_produced (h : walk.Ordered paris) {j : ℕ} (hx : walk.instant paris j = some x) :
    x ∉ walk.produced paris j := by
  intro hmem
  obtain ⟨i, hi, hxi⟩ := Walk.mem_produced.mp hmem
  exact absurd (h i j x x hi hxi hx) (lt_irrefl x)

/-! ### The series -/

inductive SeriesKind where
  | hourBound | secondPass | allDay
  deriving DecidableEq, Repr

def seriesKind (paris : Paris) (allDay : Bool) (startsAt : ℤ) : SeriesKind :=
  if allDay then .allDay else if paris.isSecondPassOfARepeatedHour startsAt then .secondPass else .hourBound

/-- How much wider than the window asked for the walk is taken. -/
def SeriesKind.margin : SeriesKind → ℤ
  | .hourBound => second
  | .secondPass => second + hour
  | .allDay => 0

/-- The occurrence an instant of the walk makes. -/
def SeriesKind.place (paris : Paris) : SeriesKind → ℤ → ℤ
  | .hourBound, x => x
  | .secondPass, x => paris.secondPassOfARepeatedHour x
  | .allDay, x => paris.startOfDay (paris.date x)

@[simp] theorem place_hourBound : SeriesKind.hourBound.place paris = id := rfl

@[simp] theorem place_secondPass : SeriesKind.secondPass.place paris = paris.secondPassOfARepeatedHour := rfl

@[simp] theorem place_allDay : SeriesKind.allDay.place paris = fun x => paris.startOfDay (paris.date x) := rfl

/-- Whether an occurrence is kept in the window asked for. -/
def SeriesKind.keeps (from_ to_ : ℤ) : SeriesKind → ℤ → Bool
  | .secondPass, o => from_ ≤ o ∧ o ≤ to_
  | _, _ => true

theorem keeps_hourBound (from_ to_ : ℤ) : SeriesKind.hourBound.keeps from_ to_ = fun _ => true := rfl

theorem keeps_allDay (from_ to_ : ℤ) : SeriesKind.allDay.keeps from_ to_ = fun _ => true := rfl

theorem keeps_secondPass (from_ to_ : ℤ) :
    SeriesKind.secondPass.keeps from_ to_ = fun o => decide (from_ ≤ o ∧ o ≤ to_) := rfl

/-- Whether the series excludes an occurrence: by instant, or by Paris day. -/
def excluded (paris : Paris) (allDay : Bool) (exdates : List ℤ) (o : ℤ) : Bool :=
  if allDay then paris.date o ∈ exdates.map paris.date else o ∈ exdates

/-- The walk a series is unrolled on, and its `COUNT`. -/
def seriesWalk (paris : Paris) (crate : Rrule) (rrule : Text) (allDay : Bool) (startsAt : ℤ) :
    Except crate.Error (Option ℕ × Walk) := do
  let rule ← parseRule crate rrule
  let (rule, anchor) := if allDay then (allDayRule paris crate rule, paris.allDayAnchor startsAt) else (rule, startsAt)
  let count := crate.getCount rule
  let walk ← buildParisRuleSet paris crate (if count.isSome then crate.count u32Max rule else rule) anchor
  return (count, walk)

section

variable {crate : Rrule} {rrule : Text} {allDay : Bool} {startsAt endsAt from_ to_ : ℤ} {exdates : List ℤ}

/-- The occurrences of a walk, in a window. -/
def startsOn (paris : Paris) (kind : SeriesKind) (count : Option ℕ) (walk : Walk) (from_ to_ : ℤ) : List ℤ :=
  ((walkOccurrences paris count walk (from_ - kind.margin) (to_ + kind.margin)).map (kind.place paris)).filter
    (kind.keeps from_ to_)

/-- The spans left are those whose starts are not excluded. -/
theorem withoutExcluded_eq (spans : List OccurrenceSpan) :
    withoutExcluded paris spans exdates allDay = spans.filter fun span => !excluded paris allDay exdates span.1 := by
  rw [withoutExcluded]
  split
  · rename_i hempty
    have hnone : exdates = [] := List.isEmpty_iff.mp hempty
    subst hnone
    refine (List.filter_eq_self.mpr fun span _ => ?_).symm
    cases allDay <;> simp [excluded]
  · cases allDay with
    | true => exact List.filter_congr fun span _ => Bool.eq_iff_iff.mpr (by simp [excluded])
    | false => exact List.filter_congr fun span _ => by simp [excluded]

theorem map_fst_withoutExcluded (spans : List OccurrenceSpan) :
    (withoutExcluded paris spans exdates allDay).map Prod.fst =
      (spans.map Prod.fst).filter fun o => !excluded paris allDay exdates o := by
  rw [withoutExcluded_eq, List.filter_map]
  rfl

/-- The span an occurrence of a series makes. -/
def spanOf (paris : Paris) (allDay : Bool) (startsAt endsAt o : ℤ) : OccurrenceSpan :=
  (o, if allDay then paris.startOfDay (paris.date o + max (paris.date endsAt - paris.date startsAt) 1)
    else o + (endsAt - startsAt))

theorem spanOf_allDay : spanOf paris true startsAt endsAt =
    fun o => (o, paris.startOfDay (paris.date o + max (paris.date endsAt - paris.date startsAt) 1)) := rfl

/-- An hour-bound series in a window. -/
theorem expandOccurrences_eq : expandOccurrences paris crate rrule startsAt from_ to_ =
    (seriesWalk paris crate rrule false startsAt).map fun found =>
      startsOn paris (seriesKind paris false startsAt) found.1 found.2 from_ to_ := by
  cases hparse : parseRule crate rrule with
  | error e => simp [expandOccurrences, seriesWalk, hparse, bind, Except.bind, Except.map]
  | ok rule =>
    simp only [expandOccurrences, seriesWalk, hparse, ruleOccurrencesIn, bind, Except.bind, pure, Except.pure]
    cases hpass : paris.isSecondPassOfARepeatedHour startsAt with
    | true =>
      cases hbuild : buildParisRuleSet paris crate
          (if (crate.getCount rule).isSome then crate.count u32Max rule else rule) startsAt with
      | error e => simp [hbuild, Except.map]
      | ok walk =>
        simp [hbuild, Except.map, startsOn, seriesKind, hpass, SeriesKind.margin, keeps_secondPass, sub_sub, add_assoc]
    | false =>
      cases hbuild : buildParisRuleSet paris crate
          (if (crate.getCount rule).isSome then crate.count u32Max rule else rule) startsAt with
      | error e => simp [hbuild, Except.map]
      | ok walk => simp [hbuild, Except.map, startsOn, seriesKind, hpass, SeriesKind.margin, keeps_hourBound]

/-- A series in a window: one walk, whatever the window. -/
theorem expandSeries_eq : expandSeries paris crate rrule allDay startsAt endsAt from_ to_ exdates =
    (seriesWalk paris crate rrule allDay startsAt).map fun found =>
      withoutExcluded paris ((startsOn paris (seriesKind paris allDay startsAt) found.1 found.2 from_ to_).map
        (spanOf paris allDay startsAt endsAt)) exdates allDay := by
  cases allDay with
  | false =>
    simp only [expandSeries, expandOccurrences_eq, Bool.false_eq_true, if_false]
    cases seriesWalk paris crate rrule false startsAt <;> rfl
  | true =>
    cases hparse : parseRule crate rrule with
    | error e => simp [expandSeries, expandAllDayOccurrences, allDayUnroll, seriesWalk, hparse, bind, Except.bind, Except.map]
    | ok rule =>
      simp only [expandSeries, expandAllDayOccurrences, allDayUnroll, seriesWalk, hparse, ruleOccurrencesIn, bind,
        Except.bind, pure, Except.pure, if_true]
      cases hbuild : buildParisRuleSet paris crate
          (if (crate.getCount (allDayRule paris crate rule)).isSome then crate.count u32Max (allDayRule paris crate rule)
            else allDayRule paris crate rule) (paris.allDayAnchor startsAt) with
      | error e => rfl
      | ok walk =>
        simp [Except.map, startsOn, seriesKind, SeriesKind.margin, keeps_allDay, spanOf_allDay, Function.comp_def]

/-- The starts of a series' spans in a window. -/
theorem map_fst_expandSeries :
    (expandSeries paris crate rrule allDay startsAt endsAt from_ to_ exdates).map (List.map Prod.fst) =
      (seriesWalk paris crate rrule allDay startsAt).map fun found =>
        (startsOn paris (seriesKind paris allDay startsAt) found.1 found.2 from_ to_).filter
          fun o => !excluded paris allDay exdates o := by
  rw [expandSeries_eq]
  cases seriesWalk paris crate rrule allDay startsAt with
  | error e => rfl
  | ok found => simp [Except.map, map_fst_withoutExcluded, spanOf, Function.comp_def]

theorem mem_startsOn {kind : SeriesKind} {o : ℤ} : o ∈ startsOn paris kind count walk from_ to_ ↔
    ∃ x, walk.Reaches paris count (from_ - kind.margin) (to_ + kind.margin) x ∧ kind.place paris x = o ∧
      kind.keeps from_ to_ o = true := by
  rw [startsOn, List.mem_filter, List.mem_map]
  constructor
  · rintro ⟨⟨x, hx, hplace⟩, hkeeps⟩
    exact ⟨x, mem_walkOccurrences.mp hx, hplace, hkeeps⟩
  · rintro ⟨x, hx, hplace, hkeeps⟩
    exact ⟨⟨x, mem_walkOccurrences.mpr hx, hplace⟩, hkeeps⟩

/-- An all-day occurrence starts no later than the instant it is made of. -/
theorem startOfDay_date_le (paris : Paris) (t : ℤ) : paris.startOfDay (paris.date t) ≤ t := by
  obtain ⟨first, _, hfirst, _, hle, -⟩ := exists_passes paris t
  have hday : paris.date t * day ≤ paris.local_ t := Int.ediv_mul_le _ (ne_of_gt day_pos)
  rw [← resolve_midnight]
  rcases eq_or_lt_of_le hday with heq | hlt
  · rw [heq, Zone.resolve_of_earliest hfirst]
    exact hle
  · rcases paris.resolve_order hlt with hbefore | ⟨hskip, -⟩
    · rw [Zone.resolve_of_earliest hfirst] at hbefore
      exact hbefore.le.trans hle
    · exact absurd (hskip.symm.trans (earliest_midnight paris _)) (by simp)

/-- An occurrence is within the margin of the instant it is made of. -/
theorem place_le (kind : SeriesKind) (x : ℤ) : kind.place paris x ≤ x + kind.margin := by
  cases kind with
  | hourBound =>
    have := second_pos
    simp only [place_hourBound, SeriesKind.margin, id]
    omega
  | secondPass =>
    obtain ⟨_, later, _, _, _, _, _, hle, _, heq⟩ := exists_passes paris x
    have := second_pos
    simp only [place_secondPass, SeriesKind.margin, heq]
    omega
  | allDay =>
    simp only [place_allDay, SeriesKind.margin, add_zero]
    exact startOfDay_date_le paris x

theorem margin_bound (kind : SeriesKind) : 0 ≤ kind.margin ∧ kind.margin ≤ second + hour := by
  cases kind <;> decide

/-- An hour-bound occurrence is not before the instant it is made of. -/
theorem le_place {kind : SeriesKind} (hkind : kind ≠ .allDay) (x : ℤ) : x ≤ kind.place paris x := by
  cases kind with
  | hourBound => exact le_refl x
  | secondPass =>
    obtain ⟨_, later, _, _, _, hle, _, _, _, heq⟩ := exists_passes paris x
    rw [place_secondPass, heq]
    exact hle
  | allDay => exact absurd rfl hkind

/-- An occurrence is on the day of the instant it is made of. -/
@[simp] theorem date_place (kind : SeriesKind) (x : ℤ) : paris.date (kind.place paris x) = paris.date x := by
  cases kind with
  | hourBound => rfl
  | secondPass => rw [place_secondPass, Paris.date, local_secondPass, Paris.date]
  | allDay => exact date_startOfDay paris _

/-- What a moment's window holds of the walk: `x` is reached, and its occurrence kept. -/
structure SeriesKind.Within (paris : Paris) (kind : SeriesKind) (count : Option ℕ) (walk : Walk) (from_ to_ x : ℤ) :
    Prop where
  reaches : walk.Reaches paris count (from_ - kind.margin) (to_ + kind.margin) x
  keeps : kind.keeps from_ to_ (kind.place paris x) = true

/-- Within a window, within a later one that has not passed it. -/
theorem SeriesKind.Within.later {kind : SeriesKind} {from' to' : ℤ} (h : kind.Within paris count walk from_ to_ x)
    (hfrom : from_ ≤ from') (hto : to_ ≤ to') (hx : from' ≤ kind.place paris x) :
    kind.Within paris count walk from' to' x := by
  refine ⟨h.reaches.later (by omega) (by omega) ?_, ?_⟩
  · have := @place_le paris kind x
    omega
  · cases kind with
    | hourBound => rfl
    | allDay => rfl
    | secondPass =>
      have hkeeps := h.keeps
      simp only [SeriesKind.keeps, decide_eq_true_eq] at hkeeps ⊢
      exact ⟨hx, hkeeps.2.trans hto⟩

theorem SeriesKind.Within.place_le {kind : SeriesKind} (h : kind.Within paris count walk from_ to_ x) :
    kind.place paris x ≤ to_ + 2 * kind.margin := by
  have hle := h.reaches.mem.2
  have := @Agenda.place_le paris kind x
  omega

/-- What a reminder is scheduled on, in a window. -/
theorem mem_reminderOccurrences (hwalk : seriesWalk paris crate rrule allDay startsAt = .ok (count, walk)) :
    ∃ occurrences,
      reminderOccurrences paris crate (some rrule) allDay startsAt endsAt from_ to_ exdates = .ok occurrences ∧
      ∀ o, o ∈ occurrences ↔ ∃ x, (seriesKind paris allDay startsAt).Within paris count walk from_ to_ x ∧
        (seriesKind paris allDay startsAt).place paris x = o ∧ excluded paris allDay exdates o = false := by
  have hmap := @map_fst_expandSeries paris crate rrule allDay startsAt endsAt from_ to_ exdates
  rw [hwalk] at hmap
  have hreminder : reminderOccurrences paris crate (some rrule) allDay startsAt endsAt from_ to_ exdates =
      (expandSeries paris crate rrule allDay startsAt endsAt from_ to_ exdates).map (List.map Prod.fst) := by
    simp only [reminderOccurrences]
    cases expandSeries paris crate rrule allDay startsAt endsAt from_ to_ exdates <;> rfl
  refine ⟨_, hreminder.trans hmap, fun o => ?_⟩
  rw [List.mem_filter, mem_startsOn]
  constructor
  · rintro ⟨⟨x, hx, rfl, hkeeps⟩, hfree⟩
    exact ⟨x, ⟨hx, hkeeps⟩, rfl, by simpa using hfree⟩
  · rintro ⟨x, hx, rfl, hfree⟩
    exact ⟨⟨x, hx.reaches, rfl, hx.keeps⟩, by simp [hfree]⟩

/-- A series that does not build is scheduled on nothing. -/
theorem reminderOccurrences_error {e : crate.Error} (hwalk : seriesWalk paris crate rrule allDay startsAt = .error e) :
    reminderOccurrences paris crate (some rrule) allDay startsAt endsAt from_ to_ exdates = .error e := by
  have hmap := @map_fst_expandSeries paris crate rrule allDay startsAt endsAt from_ to_ exdates
  rw [hwalk] at hmap
  simp only [reminderOccurrences]
  cases hexpand : expandSeries paris crate rrule allDay startsAt endsAt from_ to_ exdates with
  | error e' =>
    rw [hexpand] at hmap
    exact hmap
  | ok spans =>
    rw [hexpand] at hmap
    exact absurd hmap (by simp [Except.map])

end

end Home.Agenda
