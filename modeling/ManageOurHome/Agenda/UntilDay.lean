import Mathlib.Data.List.Sort
import ManageOurHome.Agenda.Carried
import ManageOurHome.Agenda.CivilDays
import ManageOurHome.Agenda.Picker

/-! @src apps/shared/src/validation/agenda.rs, apps/api/src/agenda/recurrence.rs | layer:proof | family:recurrence

    « Jusqu'au D ». The picker writes the last second of D in UTC. An all-day series reads it on its day; an hour-bound
    one compares its instants with it, and the days of Paris end an hour or two before those of UTC.

        Paris   D 23:59 │ D+1 00:00        01:59 │ 02:00
        UTC     ────────┼────────── D 23:59:59 ──┼──▶
                                    listed, on D+1 -/

namespace Home.Agenda

variable {paris : Paris} {crate : Rrule} {format : Format} {r : Recurrence} {walk : Walk} {d u x : ℤ}

/-- What the picker writes for a last day. -/
def lastSecond (d : ℤ) : ℤ := d * day + (day - second)

/-- The walk of a rule whose `UNTIL` is `u`: the first instant past it ends it. -/
def Walk.upTo (paris : Paris) (walk : Walk) (u : ℤ) : Walk where
  wall i := if ∀ j ≤ i, (walk.instant paris j).all (· ≤ u) then walk.wall i else none
  ended i h := by
    by_cases hall : ∀ j ≤ i + 1, (walk.instant paris j).all (· ≤ u)
    · rw [if_pos fun j hj => hall j (hj.trans i.le_succ)] at h
      rw [if_pos hall]
      exact walk.ended i h
    · exact if_neg hall
  increasing i w w' h h' := by
    split at h
    · split at h'
      · exact walk.increasing i w w' h h'
      · exact absurd h' (by simp)
    · exact absurd h (by simp)

/-- What the crate makes of the picker's texts: the last second is read as an instant in UTC, which ends the walk of the
    rule without an end; and that one walks at the time of day of its anchor. -/
structure Rrule.ReadsPicker (paris : Paris) (crate : Rrule) (format : Format) (r : Recurrence) (d : ℤ) : Prop where
  parse_until : ∀ rule', crate.parse (buildRrule format { r with end_ := .Until d }) = .ok rule' →
    ∃ rule, crate.parse (buildRrule format { r with end_ := .Never }) = .ok rule ∧
      rule' = crate.until_ ⟨lastSecond d, true⟩ rule
  endless : ∀ rule, crate.parse (buildRrule format { r with end_ := .Never }) = .ok rule →
    crate.getCount rule = none ∧ crate.getUntil rule = none
  oneTime : ∀ rule anchor walk, crate.parse (buildRrule format { r with end_ := .Never }) = .ok rule →
    crate.build rule anchor = .ok walk → ∀ i w, walk.wall i = some w → w % day = paris.local_ anchor % day
  getCount : ∀ u rule, crate.getCount (crate.until_ u rule) = crate.getCount rule
  getUntil : ∀ u rule, crate.getUntil (crate.until_ u rule) = some u
  until_until : ∀ u u' rule, crate.until_ u (crate.until_ u' rule) = crate.until_ u rule
  build_until : ∀ u rule anchor walk', crate.getUntil rule = none →
    crate.build (crate.until_ ⟨u, true⟩ rule) anchor = .ok walk' →
    ∃ walk, crate.build rule anchor = .ok walk ∧ walk' = walk.upTo paris u

/-- « Jusqu'au `d` » lists what the rule without an end lists up to the Paris day `d`. -/
def EndsOn (paris : Paris) (crate : Rrule) (format : Format) (r : Recurrence) (d : ℤ) (allDay : Bool)
    (startsAt endsAt : ℤ) : Prop :=
  ∀ from_ to_ exdates, ∃ spans,
    expandSeries paris crate (buildRrule format { r with end_ := .Never }) allDay startsAt endsAt from_ to_ exdates =
      .ok spans ∧
    expandSeries paris crate (buildRrule format { r with end_ := .Until d }) allDay startsAt endsAt from_ to_ exdates =
      .ok (spans.filter fun span => paris.date span.1 ≤ d)

/-- What the rule without an end has on `d` comes before the last second of `d` in UTC, and what it has on the day after
    comes after it. -/
def EndsInUtc (paris : Paris) (crate : Rrule) (format : Format) (r : Recurrence) (d startsAt : ℤ) : Prop :=
  ∀ count walk, seriesWalk paris crate (buildRrule format { r with end_ := .Never }) false startsAt = .ok (count, walk) →
    ∀ i x, walk.instant paris i = some x →
      (paris.date x = d → x ≤ lastSecond d) ∧ (paris.date x = d + 1 → lastSecond d < x)

/-! ### A walk and its end -/

/-- STEP: the instants of a walk at one time of day are most of a day apart. -/
theorem Walk.OneTime.apart (h : walk.OneTime) {i j : ℕ} {y : ℤ} (hij : i < j) (hx : walk.instant paris i = some x)
    (hy : walk.instant paris j = some y) : x + 20 * hour ≤ y := by
  obtain ⟨time, htime⟩ := h
  obtain ⟨w, hw, rfl⟩ := Walk.instant_eq_some.mp hx
  obtain ⟨w', hw', rfl⟩ := Walk.instant_eq_some.mp hy
  have hlt := walk.wall_lt hij hw hw'
  have hmod := (htime i w hw).trans (htime j w' hw').symm
  have hday : w + day ≤ w' := by
    have hdvd : day ∣ w' - w := Int.dvd_of_emod_eq_zero (Int.emod_eq_emod_iff_emod_sub_eq_zero.mp hmod.symm)
    have := Int.le_of_dvd (by omega) hdvd
    omega
  have := paris.resolve_bound w
  have := paris.resolve_bound w'
  have := paris.width_eq
  have : day = 24 * hour := rfl
  omega

theorem Walk.OneTime.ordered (h : walk.OneTime) : walk.Ordered paris := by
  intro i j x y hij hx hy
  have := h.apart hij hx hy
  have := hour_pos
  omega

theorem Walk.instant_upTo {i : ℕ} (hordered : walk.Ordered paris) :
    (walk.upTo paris u).instant paris i = some x ↔ walk.instant paris i = some x ∧ x ≤ u := by
  have hwall : (walk.upTo paris u).instant paris i =
      if ∀ j ≤ i, (walk.instant paris j).all (· ≤ u) then walk.instant paris i else none := by
    exact apply_ite (Option.map paris.resolve) _ _ _
  rw [hwall]
  constructor
  · intro h
    split_ifs at h with hall
    have hle := hall i le_rfl
    rw [h] at hle
    exact ⟨h, of_decide_eq_true hle⟩
  · rintro ⟨hx, hle⟩
    rw [if_pos, hx]
    intro j hj
    cases hy : walk.instant paris j with
    | none => rfl
    | some y =>
      rcases eq_or_lt_of_le hj with rfl | hlt
      · obtain rfl := Option.some.inj (hx.symm.trans hy)
        exact decide_eq_true hle
      · exact decide_eq_true ((hordered j i y x hlt hy hx).le.trans hle)

theorem Walk.Ordered.upTo (h : walk.Ordered paris) : (walk.upTo paris u).Ordered paris := by
  intro i j x y hij hx hy
  exact h i j x y hij ((Walk.instant_upTo h).mp hx).1 ((Walk.instant_upTo h).mp hy).1

/-- Ahead of an instant that is kept, nothing is cut. -/
theorem Walk.Ordered.produced_upTo (h : walk.Ordered paris) {j : ℕ} (hx : walk.instant paris j = some x) (hle : x ≤ u) :
    (walk.upTo paris u).produced paris j = walk.produced paris j := by
  refine List.filterMap_congr fun i hi => ?_
  have hij := List.mem_range.mp hi
  cases hy : walk.instant paris i with
  | none =>
    rw [Option.eq_none_iff_forall_ne_some]
    intro y hy'
    exact absurd (hy.symm.trans ((Walk.instant_upTo h).mp hy').1) (by simp)
  | some y => exact (Walk.instant_upTo h).mpr ⟨hy, (h i j y x hij hy hx).le.trans hle⟩

/-- Cut at `u`, a walk reaches what it reached, up to `u`. -/
theorem Walk.Ordered.reaches_upTo (h : walk.Ordered paris) {count : Option ℕ} {after before : ℤ} :
    (walk.upTo paris u).Reaches paris count after before x ↔ walk.Reaches paris count after before x ∧ x ≤ u := by
  constructor
  · rintro ⟨j, ⟨hj, hnew, hcount, hcap, hin⟩, hahead⟩
    obtain ⟨hx, hle⟩ := (Walk.instant_upTo h).mp hj
    have hproduced := h.produced_upTo hx hle
    rw [Walk.distinct, hproduced] at hcount hcap
    rw [hproduced] at hnew
    refine ⟨⟨j, ⟨hx, hnew, hcount, hcap, hin⟩, fun i hi y hy => ?_⟩, hle⟩
    exact hahead i hi y ((Walk.instant_upTo h).mpr ⟨hy, (h i j y x hi hy hx).le.trans hle⟩)
  · rintro ⟨⟨j, ⟨hx, hnew, hcount, hcap, hin⟩, hahead⟩, hle⟩
    have hproduced := h.produced_upTo hx hle
    refine ⟨j, ⟨(Walk.instant_upTo h).mpr ⟨hx, hle⟩, ?_, ?_, ?_, hin⟩, fun i hi y hy => ?_⟩
    · rwa [hproduced]
    · rwa [Walk.distinct, hproduced]
    · rwa [Walk.distinct, hproduced]
    · exact hahead i hi y ((Walk.instant_upTo h).mp hy).1

theorem Walk.Ordered.walkOccurrences_upTo (h : walk.Ordered paris) (count : Option ℕ) (after before : ℤ) :
    walkOccurrences paris count (walk.upTo paris u) after before =
      (walkOccurrences paris count walk after before).filter (· ≤ u) := by
  refine List.Pairwise.eq_of_mem_iff h.upTo.walkOccurrences_pairwise (h.walkOccurrences_pairwise.filter _) fun x => ?_
  rw [List.mem_filter, mem_walkOccurrences, mem_walkOccurrences, h.reaches_upTo, decide_eq_true_eq]

/-! ### The series -/

section

variable {allDay : Bool} {startsAt endsAt from_ to_ : ℤ} {exdates : List ℤ} {count : Option ℕ} {kind : SeriesKind}

theorem filter_withoutExcluded (p : OccurrenceSpan → Bool) (spans : List OccurrenceSpan) :
    (withoutExcluded paris spans exdates allDay).filter p = withoutExcluded paris (spans.filter p) exdates allDay := by
  rw [withoutExcluded, withoutExcluded]
  split
  · rfl
  · split
    · rw [List.filter_filter, List.filter_filter]
      exact List.filter_congr fun span _ => Bool.and_comm _ _
    · rw [List.filter_filter, List.filter_filter]
      exact List.filter_congr fun span _ => Bool.and_comm _ _

/-- Cut where the days go past `d`, a walk has the occurrences up to the day `d`. -/
theorem startsOn_upTo (h : walk.Ordered paris)
    (hsame : ∀ i x, walk.instant paris i = some x → (x ≤ u ↔ paris.date x ≤ d)) :
    startsOn paris kind count (walk.upTo paris u) from_ to_ =
      (startsOn paris kind count walk from_ to_).filter fun o => paris.date o ≤ d := by
  rw [startsOn, startsOn, h.walkOccurrences_upTo, List.filter_filter]
  have hkept : (walkOccurrences paris count walk (from_ - kind.margin) (to_ + kind.margin)).filter (· ≤ u) =
      (walkOccurrences paris count walk (from_ - kind.margin) (to_ + kind.margin)).filter fun x =>
        paris.date (kind.place paris x) ≤ d := by
    refine List.filter_congr fun x hx => ?_
    obtain ⟨j, hlists, -⟩ := mem_walkOccurrences.mp hx
    rw [date_place, decide_eq_decide]
    exact hsame j x hlists.1
  rw [hkept, List.filter_map, List.filter_map, List.filter_filter]
  exact congrArg _ (List.filter_congr fun x _ => Bool.and_comm _ _)

/-- An instant of a walk at one time of day is listed in the window of its occurrence alone. -/
theorem mem_startsOn_self (h : walk.OneTime) (hkind : kind ≠ .allDay) {i : ℕ} (hx : walk.instant paris i = some x) :
    kind.place paris x ∈ startsOn paris kind none walk (kind.place paris x) (kind.place paris x) := by
  have hordered : walk.Ordered paris := h.ordered
  have hmargin := margin_bound kind
  have hge : x ≤ kind.place paris x := le_place hkind x
  have hle : kind.place paris x ≤ x + kind.margin := place_le kind x
  have hsecond : second < hour := by decide
  refine mem_startsOn.mpr ⟨x, ⟨i, ⟨hx, hordered.notMem_produced hx, rfl, ?_, by omega, by omega⟩, ?_⟩, rfl, ?_⟩
  · -- nothing ahead of it is within the window
    have hempty : (walk.distinct paris i).filter
        (inWindow (kind.place paris x - kind.margin) (kind.place paris x + kind.margin)) = [] := by
      refine List.filter_eq_nil_iff.mpr fun y hy => ?_
      obtain ⟨j, hj, hyj⟩ := Walk.mem_produced.mp (List.mem_eraseDups.mp hy)
      have hapart := h.apart hj hyj hx
      simp only [inWindow, decide_eq_true_eq, not_and]
      omega
    rw [hempty]
    exact Nat.zero_lt_succ _
  · intro j hj y hy
    have hapart := h.apart hj hy hx
    omega
  · cases kind with
    | allDay => exact absurd rfl hkind
    | hourBound => rfl
    | secondPass => simp [keeps_secondPass]

/-- Two instants of such a walk make two occurrences. -/
theorem place_inj (h : walk.OneTime) (hkind : kind ≠ .allDay) {i j : ℕ} {y : ℤ} (hx : walk.instant paris i = some x)
    (hy : walk.instant paris j = some y) (heq : kind.place paris x = kind.place paris y) : x = y := by
  have hmargin := margin_bound kind
  have hsecond : second < hour := by decide
  have hx' := @le_place paris kind hkind x
  have hy' := @le_place paris kind hkind y
  have hx'' := @place_le paris kind x
  have hy'' := @place_le paris kind y
  rcases lt_trichotomy i j with hlt | rfl | hlt
  · have := h.apart hlt hx hy
    omega
  · exact Option.some.inj (hx.symm.trans hy)
  · have := h.apart hlt hy hx
    omega

/-- Only what comes on the day `d` and on the one after can fall on the other side of its last second. -/
theorem le_lastSecond_iff (h : (paris.date x = d → x ≤ lastSecond d) ∧ (paris.date x = d + 1 → lastSecond d < x)) :
    x ≤ lastSecond d ↔ paris.date x ≤ d := by
  have hlocal : paris.local_ x = x + paris.offset x := rfl
  have hbound := paris.offset_bound x
  have hwidth := paris.width_eq
  have hlow := Int.ediv_mul_le (paris.local_ x) (ne_of_gt day_pos)
  have hhigh := Int.lt_ediv_add_one_mul_self (paris.local_ x) day_pos
  have hdate : paris.date x = paris.local_ x / day := rfl
  rw [← hdate] at hlow hhigh
  have hday : day = 24 * hour := rfl
  have hsecond : second < hour := by decide
  have hpos := second_pos
  rw [lastSecond] at h ⊢
  rcases lt_trichotomy (paris.date x) d with hlt | heq | hgt
  · have : (paris.date x + 1) * day ≤ d * day := Int.mul_le_mul_of_nonneg_right (by omega) day_pos.le
    exact iff_of_true (by omega) hlt.le
  · exact iff_of_true (h.1 heq) heq.le
  · refine iff_of_false ?_ (by omega)
    rcases eq_or_lt_of_le (Int.add_one_le_iff.mpr hgt) with heq | hfar
    · exact not_le.mpr (h.2 heq.symm)
    · have : (d + 2) * day ≤ paris.date x * day := Int.mul_le_mul_of_nonneg_right (by omega) day_pos.le
      have hexpand : (d + 2) * day = d * day + 2 * day := by rw [add_mul]
      omega

/-- A midnight is up to that of `d` exactly if its day is. -/
theorem le_startOfDay_iff (hmidnight : x = paris.startOfDay (paris.date x)) :
    x ≤ paris.startOfDay d ↔ paris.date x ≤ d := by
  conv_lhs => rw [hmidnight]
  exact startOfDay_le_iff paris

theorem parseRule_eq_ok {rrule : Text} {rule : crate.Rule} : parseRule crate rrule = .ok rule ↔
    (rrule.all fun c => c.val < 128) = true ∧ crate.parse rrule = .ok rule := by
  rw [parseRule, ascii]
  split
  · rename_i hascii
    exact ⟨fun h => ⟨hascii, h⟩, And.right⟩
  · rename_i hascii
    exact ⟨fun h => absurd h (by simp [bind, Except.bind]), fun h => absurd h.1 hascii⟩

/-- The bound of a series « jusqu'au `d` »: the day itself when all-day. -/
def untilBound (paris : Paris) (allDay : Bool) (d : ℤ) : ℤ := if allDay then paris.startOfDay d else lastSecond d

/-- The anchor a series is walked from. -/
def seriesAnchor (paris : Paris) (allDay : Bool) (startsAt : ℤ) : ℤ :=
  if allDay then paris.allDayAnchor startsAt else startsAt

theorem lastSecond_ediv (d : ℤ) : lastSecond d / day = d := by
  rw [lastSecond, add_comm, Int.add_mul_ediv_right _ _ (ne_of_gt day_pos)]
  have hzero : (day - second) / day = 0 := by decide
  rw [hzero, zero_add]

/-- The rule a series is unrolled by. -/
def seriesRule (paris : Paris) (crate : Rrule) (allDay : Bool) (rule : crate.Rule) : crate.Rule :=
  if allDay then allDayRule paris crate rule else rule

theorem seriesRuleSet_eq {rrule : Text} {rule : crate.Rule} (hparse : parseRule crate rrule = .ok rule) :
    seriesRuleSet paris crate rrule allDay startsAt =
      buildParisRuleSet paris crate (seriesRule paris crate allDay rule) (seriesAnchor paris allDay startsAt) := by
  cases allDay <;>
    simp [seriesRuleSet, allDayRuleSet, allDayUnroll, parisRuleSet, hparse, seriesRule, seriesAnchor, bind, Except.bind,
      pure, Except.pure]

theorem seriesWalk_eq {rrule : Text} {rule : crate.Rule} (hparse : parseRule crate rrule = .ok rule)
    (hcount : crate.getCount (seriesRule paris crate allDay rule) = none)
    (hwalk : buildParisRuleSet paris crate (seriesRule paris crate allDay rule) (seriesAnchor paris allDay startsAt) =
      .ok walk) : seriesWalk paris crate rrule allDay startsAt = .ok (none, walk) := by
  cases allDay with
  | true =>
    simp only [seriesRule, seriesAnchor, if_true] at hcount hwalk
    simp [seriesWalk, hparse, hcount, hwalk, bind, Except.bind, pure, Except.pure]
  | false =>
    simp only [seriesRule, seriesAnchor, Bool.false_eq_true, if_false] at hcount hwalk
    simp [seriesWalk, hparse, hcount, hwalk, bind, Except.bind, pure, Except.pure]

/-- The picker's rule, by its bound. -/
theorem Rrule.ReadsPicker.seriesRule_until (hcrate : crate.ReadsPicker paris format r d) (rule : crate.Rule) :
    seriesRule paris crate allDay (crate.until_ ⟨lastSecond d, true⟩ rule) =
      crate.until_ ⟨untilBound paris allDay d, true⟩ rule := by
  cases allDay with
  | true =>
    simp only [seriesRule, allDayRule, hcrate.getUntil, if_true, hcrate.until_until, allDayUntilDay, lastSecond_ediv,
      untilBound]
  | false => rfl

theorem seriesRule_endless {rule : crate.Rule} (huntil : crate.getUntil rule = none) :
    seriesRule paris crate allDay rule = rule := by
  cases allDay with
  | true => rw [seriesRule, if_pos rfl, allDayRule, huntil]
  | false => rfl

/-- Accepted, the rule walks up to its bound what the rule without an end walks. -/
theorem seriesWalk_until (hcrate : crate.ReadsPicker paris format r d)
    (hvalid : (validate paris crate (buildRrule format { r with end_ := .Until d }) startsAt allDay).isOk) :
    ∃ walk, seriesWalk paris crate (buildRrule format { r with end_ := .Never }) allDay startsAt = .ok (none, walk) ∧
      seriesWalk paris crate (buildRrule format { r with end_ := .Until d }) allDay startsAt =
        .ok (none, walk.upTo paris (untilBound paris allDay d)) ∧
      ∀ i w, walk.wall i = some w → w % day = paris.local_ (seriesAnchor paris allDay startsAt) % day := by
  obtain ⟨-, -, hbuilt⟩ := (validate_isOk _ startsAt allDay).mp hvalid
  cases hparse : parseRule crate (buildRrule format { r with end_ := .Until d }) with
  | error e =>
    cases allDay <;> simp [seriesRuleSet, allDayRuleSet, allDayUnroll, parisRuleSet, hparse, bind, Except.bind] at hbuilt
  | ok rule' =>
    obtain ⟨hascii, hread⟩ := parseRule_eq_ok.mp hparse
    obtain ⟨rule, hnever, rfl⟩ := hcrate.parse_until rule' hread
    obtain ⟨hcount, huntil⟩ := hcrate.endless rule hnever
    have hparse' : parseRule crate (buildRrule format { r with end_ := .Never }) = .ok rule := by
      refine parseRule_eq_ok.mpr ⟨?_, hnever⟩
      rw [buildRrule_until, List.append_assoc, List.all_append] at hascii
      exact ((Bool.and_eq_true _ _).mp hascii).1
    rw [seriesRuleSet_eq hparse, hcrate.seriesRule_until] at hbuilt
    cases hwalk' : buildParisRuleSet paris crate (crate.until_ ⟨untilBound paris allDay d, true⟩ rule)
        (seriesAnchor paris allDay startsAt) with
    | error e =>
      rw [hwalk'] at hbuilt
      exact absurd hbuilt (by simp)
    | ok walk' =>
      obtain ⟨walk, hwalk, rfl⟩ := hcrate.build_until _ _ _ _ huntil hwalk'
      refine ⟨walk, seriesWalk_eq hparse' ?_ ?_, seriesWalk_eq hparse ?_ ?_, fun i w hw => ?_⟩
      · rw [seriesRule_endless huntil, hcount]
      · rw [seriesRule_endless huntil]
        exact hwalk
      · rw [hcrate.seriesRule_until, hcrate.getCount, hcount]
      · rw [hcrate.seriesRule_until]
        exact hwalk'
      · have hmod := hcrate.oneTime rule _ walk hnever hwalk i w hw
        rwa [local_firstPass] at hmod

/-- A walk whose instants keep to the days of Paris, up to the bound, ends its series on `d`. -/
theorem endsOn_of_walk
    (hnever : seriesWalk paris crate (buildRrule format { r with end_ := .Never }) allDay startsAt = .ok (none, walk))
    (huntil : seriesWalk paris crate (buildRrule format { r with end_ := .Until d }) allDay startsAt =
      .ok (none, walk.upTo paris (untilBound paris allDay d)))
    (hordered : walk.Ordered paris)
    (hsame : ∀ i x, walk.instant paris i = some x → (x ≤ untilBound paris allDay d ↔ paris.date x ≤ d)) :
    EndsOn paris crate format r d allDay startsAt endsAt := by
  intro from_ to_ exdates
  refine ⟨_, by rw [expandSeries_eq, hnever]; rfl, ?_⟩
  rw [expandSeries_eq, huntil]
  simp only [Except.map]
  rw [startsOn_upTo hordered hsame, filter_withoutExcluded, List.filter_map]
  rfl

/-- A series that ends on `d` keeps to the days of Paris. -/
theorem EndsOn.same (hnever : seriesWalk paris crate (buildRrule format { r with end_ := .Never }) false startsAt =
      .ok (none, walk))
    (huntil : seriesWalk paris crate (buildRrule format { r with end_ := .Until d }) false startsAt =
      .ok (none, walk.upTo paris (lastSecond d)))
    (honeTime : walk.OneTime) (h : EndsOn paris crate format r d false startsAt endsAt) {i : ℕ}
    (hx : walk.instant paris i = some x) : x ≤ lastSecond d ↔ paris.date x ≤ d := by
  have hordered : walk.Ordered paris := honeTime.ordered
  have hkind : seriesKind paris false startsAt ≠ .allDay := by
    rw [seriesKind_false]
    split <;> simp
  generalize hplace : seriesKind paris false startsAt = kind at *
  obtain ⟨spans, hspans, hfilter⟩ := h (kind.place paris x) (kind.place paris x) []
  rw [expandSeries_eq, hnever] at hspans
  rw [expandSeries_eq, huntil] at hfilter
  simp only [Except.map, withoutExcluded, List.isEmpty_nil, if_true, Except.ok.injEq, hplace] at hspans hfilter
  have hstarts : startsOn paris kind none (walk.upTo paris (lastSecond d)) (kind.place paris x) (kind.place paris x) =
      (startsOn paris kind none walk (kind.place paris x) (kind.place paris x)).filter fun o => paris.date o ≤ d := by
    have hfst := congrArg (List.map Prod.fst) hfilter
    rw [← hspans, List.filter_map, List.map_map, List.map_map] at hfst
    simpa [Function.comp_def, spanOf] using hfst
  have hlisted := mem_startsOn_self honeTime hkind hx
  constructor
  · intro hle
    have hmem : kind.place paris x ∈
        startsOn paris kind none (walk.upTo paris (lastSecond d)) (kind.place paris x) (kind.place paris x) := by
      obtain ⟨y, hreaches, hy, hkeeps⟩ := mem_startsOn.mp hlisted
      obtain ⟨j, hlists, hahead⟩ := hreaches
      obtain rfl := place_inj honeTime hkind hlists.1 hx hy
      exact mem_startsOn.mpr ⟨y, hordered.reaches_upTo.mpr ⟨⟨j, hlists, hahead⟩, hle⟩, rfl, hkeeps⟩
    rw [hstarts, List.mem_filter] at hmem
    simpa using hmem.2
  · intro hle
    have hmem : kind.place paris x ∈
        startsOn paris kind none (walk.upTo paris (lastSecond d)) (kind.place paris x) (kind.place paris x) := by
      rw [hstarts, List.mem_filter]
      exact ⟨hlisted, by simpa using hle⟩
    obtain ⟨y, hreaches, hy, -⟩ := mem_startsOn.mp hmem
    obtain ⟨⟨j, hlists, -⟩, hyle⟩ := hordered.reaches_upTo.mp hreaches
    obtain rfl := place_inj honeTime hkind hlists.1 hx hy
    exact hyle

/-- CORRECT: « jusqu'au `d` » ends an all-day series on `d`, and an hour-bound one exactly if its occurrences on `d` and
    on the day after are on either side of the last second of `d` in UTC. -/
theorem until_ends_on_iff (hcrate : crate.ReadsPicker paris format r d)
    (hvalid : (validate paris crate (buildRrule format { r with end_ := .Until d }) startsAt allDay).isOk) :
    EndsOn paris crate format r d allDay startsAt endsAt ↔ allDay = true ∨ EndsInUtc paris crate format r d startsAt := by
  obtain ⟨walk, hnever, huntil, htime⟩ := seriesWalk_until hcrate hvalid
  have honeTime : walk.OneTime := ⟨_, htime⟩
  cases allDay with
  | true =>
    refine iff_of_true (endsOn_of_walk hnever huntil honeTime.ordered fun i x hx => ?_) (.inl rfl)
    have hmidnights : ∀ i w, walk.wall i = some w → w % day = 0 := by
      intro i w hw
      rw [htime i w hw, seriesAnchor, if_pos rfl]
      exact local_startOfDay_mod paris _
    obtain ⟨w, -, heq⟩ := Walk.instant_of_midnights hmidnights hx
    refine le_startOfDay_iff ?_
    rw [heq, date_startOfDay]
  | false =>
    simp only [Bool.false_eq_true, false_or]
    constructor
    · intro h count walk' hwalk' i x hx
      obtain ⟨rfl, rfl⟩ := Prod.mk.inj (Except.ok.inj (hnever.symm.trans hwalk'))
      have hsame := h.same hnever huntil honeTime hx
      exact ⟨fun heq => hsame.mpr heq.le, fun heq => not_le.mp fun hle => absurd (hsame.mp hle) (by omega)⟩
    · intro h
      exact endsOn_of_walk hnever huntil honeTime.ordered fun i x hx => le_lastSecond_iff (h none walk hnever i x hx)

end

/-! ### Every day until 2026-07-10 -/

def untilJuly : Recurrence := ⟨.Daily, 1, [], .Until 20644⟩

/-- chrono, on that date. -/
def julyFormat : Format := ⟨fun d => if d = 20644 then "20260710".toList else [], fun _ => []⟩

/-- `rrule` on `FREQ=DAILY`, with or without that end. -/
def julyCrate : Rrule where
  Rule := Option Until
  Error := Unit
  invalidParameterFormat _ := ()
  parse text :=
    if text = "FREQ=DAILY".toList then .ok none
    else if text = "FREQ=DAILY;UNTIL=20260710T235959Z".toList then .ok (some ⟨lastSecond 20644, true⟩)
    else .error ()
  getFreq _ := .Daily
  getByHour _ := []
  getByMinute _ := []
  getBySecond _ := []
  getCount _ := none
  count _ rule := rule
  getUntil rule := rule
  until_ u _ := some u
  build rule anchor :=
    let walk := everyDay (europeParis.local_ anchor)
    match rule with
    | none => .ok walk
    | some u => if u.instant < anchor then .error () else .ok (walk.upTo europeParis u.instant)

theorem parse_july : julyCrate.parse (buildRrule julyFormat { untilJuly with end_ := .Never }) = .ok none := by
  have htext : buildRrule julyFormat { untilJuly with end_ := .Never } = "FREQ=DAILY".toList := by decide +kernel
  rw [htext]
  simp [julyCrate]

theorem parse_july_until : julyCrate.parse (buildRrule julyFormat { untilJuly with end_ := .Until 20644 }) =
    .ok (some ⟨lastSecond 20644, true⟩) := by
  have htext : buildRrule julyFormat { untilJuly with end_ := .Until 20644 } =
      "FREQ=DAILY;UNTIL=20260710T235959Z".toList := by decide +kernel
  rw [htext]
  simp [julyCrate]

theorem julyCrate_readsPicker : julyCrate.ReadsPicker europeParis julyFormat untilJuly 20644 where
  parse_until rule' h := by
    obtain rfl := Except.ok.inj (parse_july_until.symm.trans h)
    exact ⟨none, parse_july, rfl⟩
  endless rule h := by
    obtain rfl := Except.ok.inj (parse_july.symm.trans h)
    exact ⟨rfl, rfl⟩
  oneTime rule anchor walk h hbuild i w hw := by
    obtain rfl := Except.ok.inj (parse_july.symm.trans h)
    obtain rfl := Except.ok.inj hbuild
    obtain rfl := Option.some.inj hw
    exact Int.add_mul_emod_self_right _ _ _
  getCount _ _ := rfl
  getUntil _ _ := rfl
  until_until _ _ _ := rfl
  build_until u rule anchor walk' hrule hbuild := by
    obtain rfl : rule = none := hrule
    refine ⟨_, rfl, ?_⟩
    simp only [julyCrate] at hbuild
    split at hbuild
    · exact absurd hbuild (by simp)
    · exact (Except.ok.inj hbuild).symm

/-- All-day, from the 1st. -/
theorem until_ends_on_iff_july : EndsOn europeParis julyCrate julyFormat untilJuly 20644 true
    (europeParis.startOfDay 20635) (europeParis.startOfDay 20636) :=
  (until_ends_on_iff julyCrate_readsPicker (by decide +kernel)).mpr (.inl rfl)

/-- At 00:30 from the 1st: the 11th is listed. -/
theorem listed_past_the_last_day : ¬∀ (paris : Paris) (crate : Rrule) (format : Format) (r : Recurrence) (d : ℤ)
    (allDay : Bool) (startsAt endsAt : ℤ), crate.ReadsPicker paris format r d →
    (validate paris crate (buildRrule format { r with end_ := .Until d }) startsAt allDay).isOk →
    EndsOn paris crate format r d allDay startsAt endsAt := by
  intro hclaim
  have hvalid : (validate europeParis julyCrate (buildRrule julyFormat { untilJuly with end_ := .Until 20644 })
      (20634 * day + 22 * hour + 30 * minute) false).isOk := by decide +kernel
  have hends := hclaim europeParis julyCrate julyFormat untilJuly 20644 false (20634 * day + 22 * hour + 30 * minute)
    (20634 * day + 23 * hour) julyCrate_readsPicker hvalid
  obtain ⟨walk, hnever, huntil, htime⟩ := seriesWalk_until julyCrate_readsPicker hvalid
  have hparse : parseRule julyCrate (buildRrule julyFormat { untilJuly with end_ := .Never }) = .ok none :=
    parseRule_eq_ok.mpr ⟨by decide +kernel, parse_july⟩
  have hwalk := @seriesWalk_eq europeParis julyCrate _ false (20634 * day + 22 * hour + 30 * minute) _ _ hparse rfl rfl
  obtain ⟨-, rfl⟩ := Prod.mk.inj (Except.ok.inj (hnever.symm.trans hwalk))
  -- ten days on
  have hx : (everyDay (europeParis.local_ (europeParis.firstPassOfARepeatedHour
      (20634 * day + 22 * hour + 30 * minute)))).instant europeParis 10 = some (20644 * day + 22 * hour + 30 * minute) := by
    decide +kernel
  have hsame := hends.same hnever huntil ⟨_, htime⟩ hx
  exact absurd (hsame.mp (by decide)) (by decide +kernel)

end Home.Agenda
