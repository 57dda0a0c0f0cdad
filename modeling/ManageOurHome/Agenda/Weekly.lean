import Mathlib.Data.Int.ConditionallyCompleteOrder
import Mathlib.Data.Int.Interval
import ManageOurHome.Agenda.Calendar
import ManageOurHome.Agenda.UntilDay
import ManageOurHome.Lib.Enumerated

/-! @src apps/shared/src/validation/agenda.rs, apps/api/src/agenda/recurrence.rs | layer:proof | family:recurrence

    The picker's weekly rules, day by day. A rule names days, counted from the day the series starts on: in one week out
    of so many, on its weekdays, or on that of the start when it has none. The occurrences are those days in order, at
    the start's time of day, as many as `COUNT` says or up to `UNTIL`.

        every 2 weeks, MO TH     M T W T F S S │ M T W T F S S │ M T W T F S S
        from a Wednesday             s ●       │               │ ●     ●       -/

namespace Home.Agenda

variable {paris : Paris} {crate : Rrule} {format : Format} {r : Recurrence} {walk : Walk} {allDay : Bool}
  {startsAt a d m w start : ℤ} {k : ℕ}

/-! ### The days a rule names -/

def weekdayOf (d : ℤ) : Weekday := WEEKDAYS.getD (numDaysFromMonday d).toNat .Mon

/-- The Monday that opens the week of `d`. -/
def mondayOf (d : ℤ) : ℤ := d - numDaysFromMonday d

/-- `d` is a day of the weekly rule, counted from `a`. -/
def Recurrence.Names (r : Recurrence) (a d : ℤ) : Prop :=
  a ≤ d ∧ (mondayOf d - mondayOf a) / 7 % (max r.interval 1 : ℕ) = 0 ∧
    if r.byday = [] then weekdayOf d = weekdayOf a else weekdayOf d ∈ r.byday

instance (r : Recurrence) (a d : ℤ) : Decidable (r.Names a d) := by
  unfold Recurrence.Names
  infer_instance

theorem weekdayOf_eq_iff : weekdayOf d = weekdayOf a ↔ d % 7 = a % 7 := by
  have hd := Int.emod_nonneg (d + 3) (by decide : (7 : ℤ) ≠ 0)
  have ha := Int.emod_nonneg (a + 3) (by decide : (7 : ℤ) ≠ 0)
  have hinj : ∀ i < 7, ∀ j < 7, WEEKDAYS.getD i .Mon = WEEKDAYS.getD j .Mon ↔ i = j := by decide
  rw [weekdayOf, weekdayOf, numDaysFromMonday, numDaysFromMonday, hinj _ (by omega) _ (by omega)]
  omega

/-- Moved by whole weeks, a rule names the days moved as much. -/
theorem Recurrence.names_add_weeks (n : ℤ) : r.Names (a + 7 * n) (d + 7 * n) ↔ r.Names a d := by
  have hweekday : ∀ x, weekdayOf (x + 7 * n) = weekdayOf x := fun x => weekdayOf_eq_iff.mpr (by omega)
  have hmonday : ∀ x, mondayOf (x + 7 * n) = mondayOf x + 7 * n := by
    intro x
    rw [mondayOf, mondayOf, numDaysFromMonday, numDaysFromMonday]
    omega
  rw [Names, Names, hweekday, hweekday, hmonday, hmonday, add_sub_add_right_eq_sub, add_le_add_iff_right]

/-- And a rule on the weekday of its start, moved by any number of days. -/
theorem Recurrence.names_add_of_byday (h : r.byday = []) (m : ℤ) : r.Names (a + m) (d + m) ↔ r.Names a d := by
  have hweekday : weekdayOf (d + m) = weekdayOf (a + m) ↔ weekdayOf d = weekdayOf a := by
    rw [weekdayOf_eq_iff, weekdayOf_eq_iff]
    omega
  have hmonday : weekdayOf d = weekdayOf a → mondayOf (d + m) - mondayOf (a + m) = mondayOf d - mondayOf a := by
    intro heq
    rw [weekdayOf_eq_iff] at heq
    simp only [mondayOf, numDaysFromMonday]
    omega
  rw [Names, Names, if_pos h, if_pos h, hweekday, add_le_add_iff_right]
  constructor
  · rintro ⟨hle, hweek, heq⟩
    exact ⟨hle, hmonday heq ▸ hweek, heq⟩
  · rintro ⟨hle, hweek, heq⟩
    exact ⟨hle, (hmonday heq).symm ▸ hweek, heq⟩

/-! ### The occurrences -/

/-- The wall clock of the series on the day `d`, started at the wall clock `start`. -/
def onDay (start d : ℤ) : ℤ := d * day + start % day

theorem onDay_emod (start d : ℤ) : onDay start d % day = start % day := by
  rw [onDay, add_comm, Int.add_mul_emod_self_right, Int.emod_emod]

theorem onDay_ediv (start d : ℤ) : onDay start d / day = d := by
  rw [onDay, add_comm, Int.add_mul_ediv_right _ _ (ne_of_gt day_pos), Int.ediv_eq_zero_of_lt
    (Int.emod_nonneg _ (ne_of_gt day_pos)) (Int.emod_lt_of_pos _ day_pos), zero_add]

theorem onDay_of_emod (h : w % day = start % day) : onDay start (w / day) = w := by
  rw [onDay, ← h]
  exact Int.ediv_mul_add_emod w day

theorem onDay_lt_iff {e : ℤ} : onDay start d < onDay start e ↔ d < e := by
  rw [onDay, onDay, add_lt_add_iff_right]
  exact Int.mul_lt_mul_right day_pos

/-- The series has the day `d`: its rule names it, and `UNTIL` is not past. -/
def Recurrence.Has (paris : Paris) (allDay : Bool) (r : Recurrence) (start d : ℤ) : Prop :=
  r.Names (start / day) d ∧ match r.end_ with
    | .Until last => paris.resolve (onDay start d) ≤ untilBound paris allDay last
    | _ => True

/-- Fewer of the rule's days than `COUNT` come before `d`. -/
def Recurrence.Counts (r : Recurrence) (start d : ℤ) : Prop :=
  match r.end_ with
  | .Count n => ((Finset.Ico (start / day) d).filter (r.Names (start / day))).card < n
  | _ => True

/-- `COUNT` lets the `k`-th occurrence be. -/
def RecurrenceEnd.Lets : RecurrenceEnd → ℕ → Prop
  | .Count n, k => k < n
  | _, _ => True

/-- How far the clocks put a wall clock off: by the hour skipped, if they skip it. -/
def Paris.putOff (paris : Paris) (w : ℤ) : ℤ := paris.local_ (paris.resolve w) - w

theorem putOff_bound (paris : Paris) (w : ℤ) : 0 ≤ paris.putOff w ∧ paris.putOff w ≤ hour := by
  have hhour := hour_pos
  rw [Paris.putOff]
  by_cases hskipped : paris.earliest w = none
  · rw [Zone.local_resolve_skipped hskipped, paris.shift_eq]
    omega
  · rw [Zone.local_resolve hskipped]
    omega

/-- `o` is the `k`-th occurrence of the series, the first being the 0th. -/
def IsOccurrence (paris : Paris) (crate : Rrule) (rrule : Text) (allDay : Bool) (startsAt : ℤ) (k : ℕ) (o : ℤ) : Prop :=
  ∃ count walk x, seriesWalk paris crate rrule allDay startsAt = .ok (count, walk) ∧ walk.Counts paris count k x ∧
    (seriesKind paris allDay startsAt).place paris x = o

/-- An ordered walk has produced as many instants as it has taken steps. -/
theorem Walk.Ordered.length_distinct (h : walk.Ordered paris) {x : ℤ} (hx : walk.instant paris k = some x) :
    (walk.distinct paris k).length = k := by
  induction k generalizing x with
  | zero => rfl
  | succ k ih =>
    obtain ⟨y, hy⟩ : ∃ y, walk.instant paris k = some y := by
      refine Option.ne_none_iff_exists'.mp fun hnone => ?_
      rw [Walk.instant, walk.ended k (Option.map_eq_none_iff.mp hnone)] at hx
      cases hx
    rw [Walk.distinct_succ, hy]
    simp only
    rw [if_neg (h.notMem_produced hy), List.length_append, ih hy]
    rfl

/-- The occurrences of an ordered walk: its instants, as many as `COUNT` says. -/
theorem Walk.Ordered.counts_iff (h : walk.Ordered paris) {count : Option ℕ} {x : ℤ} :
    walk.Counts paris count k x ↔ walk.instant paris k = some x ∧ (count.all fun n => k < n) = true := by
  constructor
  · rintro ⟨hx, -, hcount⟩
    rw [h.length_distinct hx] at hcount
    exact ⟨hx, hcount⟩
  · rintro ⟨hx, hcount⟩
    refine ⟨hx, h.notMem_produced hx, ?_⟩
    rw [h.length_distinct hx]
    exact hcount

/-! ### What the crate makes of the picker's texts -/

/-- A rule without an end, given the picker's, where `bound` puts the last day. -/
def Rrule.endedAt (crate : Rrule) (rule : crate.Rule) (bound : ℤ → ℤ) : RecurrenceEnd → crate.Rule
  | .Never => rule
  | .Count n => crate.count n rule
  | .Until d => crate.until_ ⟨bound d, true⟩ rule

/-- A weekly rule of the picker is read with its end; without one, it walks the days it names from any anchor, at the
    anchor's time of day. `COUNT` takes as many of them, and `UNTIL` those up to it, unless the anchor is past it. -/
structure Rrule.ReadsWeekly (paris : Paris) (crate : Rrule) (format : Format) (r : Recurrence) : Prop where
  weekly : r.freq = .Weekly
  count_le : ∀ n, r.end_ = .Count n → n ≤ u32Max
  parse_end : ∀ rule', crate.parse (buildRrule format r) = .ok rule' →
    ∃ rule, crate.parse (buildRrule format { r with end_ := .Never }) = .ok rule ∧
      rule' = crate.endedAt rule lastSecond r.end_
  endless : ∀ rule, crate.parse (buildRrule format { r with end_ := .Never }) = .ok rule →
    crate.getCount rule = none ∧ crate.getUntil rule = none
  build : ∀ rule anchor, crate.parse (buildRrule format { r with end_ := .Never }) = .ok rule →
    ∃ walk, crate.build rule anchor = .ok walk ∧ ∀ w, (∃ i, walk.wall i = some w) ↔
      w % day = paris.local_ anchor % day ∧ r.Names (paris.local_ anchor / day) (w / day)
  getCount_count : ∀ n rule, crate.getCount (crate.count n rule) = some n
  getUntil_count : ∀ n rule, crate.getUntil (crate.count n rule) = crate.getUntil rule
  count_count : ∀ n n' rule, crate.count n (crate.count n' rule) = crate.count n rule
  getCount_until : ∀ u rule, crate.getCount (crate.until_ u rule) = crate.getCount rule
  getUntil_until : ∀ u rule, crate.getUntil (crate.until_ u rule) = some u
  until_until : ∀ u u' rule, crate.until_ u (crate.until_ u' rule) = crate.until_ u rule
  build_count : ∀ n rule anchor, crate.getCount rule = none → crate.getUntil rule = none →
    crate.build (crate.count n rule) anchor = (crate.build rule anchor).map (·.take n)
  build_until : ∀ u rule anchor, crate.getCount rule = none → crate.getUntil rule = none → anchor ≤ u →
    crate.build (crate.until_ ⟨u, true⟩ rule) anchor = (crate.build rule anchor).map (·.upTo paris u)
  until_past : ∀ u rule anchor, u < anchor → ¬(crate.build (crate.until_ ⟨u, true⟩ rule) anchor).isOk

section

variable {rule : crate.Rule} {bound : ℤ → ℤ} {anchor : ℤ}

/-- An all-day series puts `UNTIL` on its day. -/
theorem Rrule.ReadsWeekly.seriesRule_endedAt (hcrate : crate.ReadsWeekly paris format r)
    (huntil : crate.getUntil rule = none) : seriesRule paris crate allDay (crate.endedAt rule lastSecond r.end_) =
      crate.endedAt rule (untilBound paris allDay) r.end_ := by
  cases r.end_ with
  | Never => exact seriesRule_endless huntil
  | Count n => exact seriesRule_endless ((hcrate.getUntil_count n rule).trans huntil)
  | Until d =>
    cases allDay with
    | true =>
      simp only [Rrule.endedAt, seriesRule, allDayRule, hcrate.getUntil_until, if_true, hcrate.until_until, allDayUntilDay,
        lastSecond_ediv, untilBound]
    | false => rfl

/-- A rule is built on every anchor that is not past its end. -/
theorem Rrule.ReadsWeekly.build_isOk (hcrate : crate.ReadsWeekly paris format r)
    (hparse : crate.parse (buildRrule format { r with end_ := .Never }) = .ok rule) :
    (crate.build (crate.endedAt rule bound r.end_) anchor).isOk ↔ ∀ d, r.end_ = .Until d → anchor ≤ bound d := by
  obtain ⟨walk, hwalk, -⟩ := hcrate.build rule anchor hparse
  obtain ⟨hcount, huntil⟩ := hcrate.endless rule hparse
  cases hend : r.end_ with
  | Never =>
    refine iff_of_true ?_ fun d h => by cases h
    rw [Rrule.endedAt, hwalk]
    rfl
  | Count n =>
    refine iff_of_true ?_ fun d h => by cases h
    rw [Rrule.endedAt, hcrate.build_count n rule anchor hcount huntil, hwalk]
    rfl
  | Until d =>
    constructor
    · intro hok d' h
      obtain rfl := RecurrenceEnd.Until.inj h
      by_contra hpast
      exact hcrate.until_past _ rule anchor (not_le.mp hpast) hok
    · intro h
      rw [Rrule.endedAt, hcrate.build_until _ rule anchor hcount huntil (h d rfl), hwalk]
      rfl

/-- What is accepted on one start is accepted on every start that is not past the end. -/
theorem Rrule.ReadsWeekly.validate_isOk (hcrate : crate.ReadsWeekly paris format r)
    (hvalid : (validate paris crate (buildRrule format r) startsAt allDay).isOk) (startsAt' : ℤ) :
    (validate paris crate (buildRrule format r) startsAt' allDay).isOk ↔
      ∀ d, r.end_ = .Until d →
        paris.firstPassOfARepeatedHour (seriesAnchor paris allDay startsAt') ≤ untilBound paris allDay d := by
  obtain ⟨hone, hsteps, hbuilt⟩ := (Home.Agenda.validate_isOk _ startsAt allDay).mp hvalid
  cases hparse : parseRule crate (buildRrule format r) with
  | error e =>
    cases allDay <;> simp [seriesRuleSet, allDayRuleSet, allDayUnroll, parisRuleSet, hparse, bind, Except.bind] at hbuilt
  | ok rule' =>
    obtain ⟨rule, hnever, rfl⟩ := hcrate.parse_end rule' (parseRule_eq_ok.mp hparse).2
    rw [Home.Agenda.validate_isOk, seriesRuleSet_eq hparse,
      hcrate.seriesRule_endedAt (hcrate.endless rule hnever).2, buildParisRuleSet, hcrate.build_isOk hnever]
    exact ⟨fun h => h.2.2, fun h => ⟨hone, hsteps, h⟩⟩

theorem seriesWalk_eq_build {rrule : Text} (hparse : parseRule crate rrule = .ok rule) :
    seriesWalk paris crate rrule allDay startsAt =
      (buildParisRuleSet paris crate (if (crate.getCount (seriesRule paris crate allDay rule)).isSome
          then crate.count u32Max (seriesRule paris crate allDay rule) else seriesRule paris crate allDay rule)
        (seriesAnchor paris allDay startsAt)).map fun walk =>
          (crate.getCount (seriesRule paris crate allDay rule), walk) := by
  cases allDay with
  | true =>
    simp only [seriesWalk, hparse, seriesRule, seriesAnchor, if_true, bind, Except.bind, pure, Except.pure]
    cases buildParisRuleSet paris crate _ (paris.allDayAnchor startsAt) <;> rfl
  | false =>
    simp only [seriesWalk, hparse, seriesRule, seriesAnchor, Bool.false_eq_true, if_false, bind, Except.bind, pure,
      Except.pure]
    cases buildParisRuleSet paris crate _ startsAt <;> rfl

theorem Walk.Ordered.wall_upTo (h : walk.Ordered paris) {u : ℤ} {i : ℕ} :
    (walk.upTo paris u).wall i = some w ↔ walk.wall i = some w ∧ paris.resolve w ≤ u := by
  have hinstant : ∀ v : Walk, v.wall i = some w → v.instant paris i = some (paris.resolve w) := by
    intro v hv
    rw [Walk.instant, hv]
    rfl
  constructor
  · intro hw
    have hle := ((Walk.instant_upTo h).mp (hinstant _ hw)).2
    simp only [Walk.upTo] at hw
    split at hw
    · exact ⟨hw, hle⟩
    · cases hw
  · rintro ⟨hw, hle⟩
    have hkept := (Walk.instant_upTo h).mpr ⟨hinstant walk hw, hle⟩
    obtain ⟨v, hv, -⟩ := Walk.instant_eq_some.mp hkept
    rw [hv]
    simp only [Walk.upTo] at hv
    split at hv
    · exact hv.symm.trans hw
    · cases hv

/-- Where an occurrence stands on the clocks. -/
theorem local_place {kind : SeriesKind} (hmidnight : kind = .allDay → w % day = 0) :
    paris.local_ (kind.place paris (paris.resolve w)) = w + paris.putOff w := by
  have hself : w + paris.putOff w = paris.local_ (paris.resolve w) := by
    rw [Paris.putOff]
    omega
  rw [hself]
  cases kind with
  | hourBound => rfl
  | secondPass => exact local_secondPass paris _
  | allDay =>
    have hw : w = w / day * day := (Int.ediv_mul_cancel_of_emod_eq_zero (hmidnight rfl)).symm
    rw [place_allDay, hw, resolve_midnight]
    simp only [date_startOfDay]

/-- The walk of a weekly series: its days in order, which `COUNT` cuts short later. -/
theorem Rrule.ReadsWeekly.seriesWalk (hcrate : crate.ReadsWeekly paris format r)
    (hvalid : (validate paris crate (buildRrule format r) startsAt allDay).isOk)
    (hstart : start = paris.local_ (seriesAnchor paris allDay startsAt)) :
    ∃ count walk W, Home.Agenda.seriesWalk paris crate (buildRrule format r) allDay startsAt = .ok (count, walk) ∧
      walk.Ordered paris ∧ Enumerates W {w | w % day = start % day ∧ r.Has paris allDay start (w / day)} ∧
      (∀ k, (count.all fun n => k < n) = true ↔ r.end_.Lets k) ∧ ∀ k, r.end_.Lets k → walk.wall k = W k := by
  have hbounds := (hcrate.validate_isOk hvalid startsAt).mp hvalid
  obtain ⟨-, -, hbuilt⟩ := (Home.Agenda.validate_isOk _ startsAt allDay).mp hvalid
  cases hparse : parseRule crate (buildRrule format r) with
  | error e =>
    cases allDay <;> simp [seriesRuleSet, allDayRuleSet, allDayUnroll, parisRuleSet, hparse, bind, Except.bind] at hbuilt
  | ok rule' =>
    obtain ⟨rule, hnever, rfl⟩ := hcrate.parse_end rule' (parseRule_eq_ok.mp hparse).2
    obtain ⟨hcount, huntil⟩ := hcrate.endless rule hnever
    obtain ⟨walk, hwalk, hwalls⟩ := hcrate.build rule
      (paris.firstPassOfARepeatedHour (seriesAnchor paris allDay startsAt)) hnever
    rw [local_firstPass, ← hstart] at hwalls
    have honeTime : walk.OneTime := ⟨start % day, fun i w hw => ((hwalls w).mp ⟨i, hw⟩).1⟩
    have hsome : ∀ end_, r.end_ = end_ → (∀ d, end_ ≠ .Until d) →
        Enumerates walk.wall {w | w % day = start % day ∧ r.Has paris allDay start (w / day)} := by
      intro end_ hend hnot
      refine ⟨walk.ended, walk.increasing, fun w => ?_⟩
      rw [hwalls, Set.mem_ofPred_eq, Recurrence.Has, hend]
      cases end_ with
      | Until d => exact absurd rfl (hnot d)
      | Never => simp
      | Count n => simp
    rw [seriesWalk_eq_build hparse, hcrate.seriesRule_endedAt huntil, buildParisRuleSet]
    cases hend : r.end_ with
    | Never =>
      refine ⟨none, walk, walk.wall, ?_, honeTime.ordered, hsome _ hend (by simp), fun k => by simp [RecurrenceEnd.Lets],
        fun _ _ => rfl⟩
      rw [Rrule.endedAt, hcount, if_neg (by simp), hwalk]
      rfl
    | Count n =>
      have hordered : (walk.take u32Max).Ordered paris := by
        intro i j x y hij hx hy
        have hkept : ∀ {i : ℕ} {x : ℤ}, (walk.take u32Max).instant paris i = some x → walk.instant paris i = some x := by
          intro i x hx
          simp only [Walk.instant, Walk.take] at hx ⊢
          split at hx
          · exact hx
          · cases hx
        exact honeTime.ordered i j x y hij (hkept hx) (hkept hy)
      refine ⟨some n, walk.take u32Max, walk.wall, ?_, hordered, hsome _ hend (by simp),
        fun k => by simp [RecurrenceEnd.Lets], fun k hk => if_pos (hk.trans_le (hcrate.count_le n hend))⟩
      rw [Rrule.endedAt, hcrate.getCount_count, Option.isSome_some, if_pos rfl, hcrate.count_count,
        hcrate.build_count _ _ _ hcount huntil, hwalk]
      rfl
    | Until d =>
      refine ⟨none, walk.upTo paris (untilBound paris allDay d), (walk.upTo paris (untilBound paris allDay d)).wall, ?_,
        honeTime.ordered.upTo, ⟨Walk.ended _, Walk.increasing _, fun w => ?_⟩, fun k => by simp [RecurrenceEnd.Lets],
        fun _ _ => rfl⟩
      · rw [Rrule.endedAt, hcrate.getCount_until, hcount, if_neg (by simp),
          hcrate.build_until _ _ _ hcount huntil (hbounds d hend), hwalk]
        rfl
      · simp only [honeTime.ordered.wall_upTo, Set.mem_ofPred_eq, Recurrence.Has, hend, exists_and_right, hwalls, and_assoc]
        refine and_congr_right fun hmod => and_congr_right fun _ => ?_
        rw [onDay_of_emod hmod]

/-- The occurrences of a weekly series, by the days they fall on. -/
theorem Rrule.ReadsWeekly.occurrences (hcrate : crate.ReadsWeekly paris format r)
    (hvalid : (validate paris crate (buildRrule format r) startsAt allDay).isOk)
    (hstart : start = paris.local_ (seriesAnchor paris allDay startsAt)) :
    ∃ W, Enumerates W {w | w % day = start % day ∧ r.Has paris allDay start (w / day)} ∧
      ∀ k t, (∃ o, IsOccurrence paris crate (buildRrule format r) allDay startsAt k o ∧ paris.local_ o = t) ↔
        r.end_.Lets k ∧ ∃ w ∈ W k, w + paris.putOff w = t := by
  obtain ⟨count, walk, W, hwalk, hordered, hW, hlets, hwall⟩ := hcrate.seriesWalk hvalid hstart
  have hmidnight : ∀ k, ∀ w ∈ W k, seriesKind paris allDay startsAt = .allDay → w % day = 0 := by
    intro k w hw hkind
    rw [((hW.mem w).mpr ⟨k, hw⟩).1, hstart]
    cases allDay with
    | true => exact local_startOfDay_mod paris _
    | false =>
      rw [seriesKind_false] at hkind
      split at hkind <;> cases hkind
  refine ⟨W, hW, fun k t => ?_⟩
  constructor
  · rintro ⟨_, ⟨count', walk', x, hsame, hcounts, rfl⟩, rfl⟩
    obtain ⟨rfl, rfl⟩ := Prod.mk.inj (Except.ok.inj (hwalk.symm.trans hsame))
    obtain ⟨hx, hcount⟩ := hordered.counts_iff.mp hcounts
    have hk := (hlets k).mp hcount
    obtain ⟨w, hw, rfl⟩ := Walk.instant_eq_some.mp hx
    rw [hwall k hk] at hw
    exact ⟨hk, w, hw, (local_place (hmidnight k w hw)).symm⟩
  · rintro ⟨hk, w, hw, rfl⟩
    have hx : walk.instant paris k = some (paris.resolve w) := Walk.instant_eq_some.mpr ⟨w, (hwall k hk).trans hw, rfl⟩
    exact ⟨_, ⟨count, walk, _, hwalk, hordered.counts_iff.mpr ⟨hx, (hlets k).mpr hk⟩, rfl⟩,
      local_place (hmidnight k w hw)⟩

end

/-- The days that `COUNT` leaves are those up to the last occurrence it lets be. -/
theorem counts_iff {W : ℕ → Option ℤ}
    (hW : Enumerates W {w | w % day = start % day ∧ r.Has paris allDay start (w / day)}) :
    r.Counts start d ↔ ∃ k, r.end_.Lets k ∧ ∀ w ∈ W k, onDay start d ≤ w := by
  classical
  have hbefore : ∀ w, w ∈ ((Finset.Ico (start / day) d).filter (r.Has paris allDay start)).image (onDay start) ↔
      w ∈ {w | w % day = start % day ∧ r.Has paris allDay start (w / day)} ∧ w < onDay start d := by
    intro w
    simp only [Finset.mem_image, Finset.mem_filter, Finset.mem_Ico, Set.mem_ofPred_eq]
    constructor
    · rintro ⟨e, ⟨⟨-, hlt⟩, hhas⟩, rfl⟩
      rw [onDay_emod, onDay_ediv]
      exact ⟨⟨rfl, hhas⟩, onDay_lt_iff.mpr hlt⟩
    · rintro ⟨⟨hmod, hhas⟩, hlt⟩
      rw [← onDay_of_emod hmod, onDay_lt_iff] at hlt
      exact ⟨w / day, ⟨⟨hhas.1.1, hlt⟩, hhas⟩, onDay_of_emod hmod⟩
  have hendless : (∀ k, r.end_.Lets k) → ∃ k, r.end_.Lets k ∧ ∀ w ∈ W k, onDay start d ≤ w := by
    intro hlets
    obtain ⟨k, -, hk⟩ := (hW.card_lt_iff hbefore).mp (Nat.lt_succ_self _)
    exact ⟨k, hlets k, hk⟩
  cases hend : r.end_ with
  | Never =>
    rw [hend] at hendless
    exact iff_of_true (by simp [Recurrence.Counts, hend]) (hendless fun _ => trivial)
  | Until last =>
    rw [hend] at hendless
    exact iff_of_true (by simp [Recurrence.Counts, hend]) (hendless fun _ => trivial)
  | Count n =>
    have hinj : Function.Injective (onDay start) := fun d e h => by rw [← onDay_ediv start d, h, onDay_ediv]
    have hhas : (Finset.Ico (start / day) d).filter (r.Has paris allDay start) =
        (Finset.Ico (start / day) d).filter (r.Names (start / day)) := by
      refine Finset.filter_congr fun e _ => ?_
      simp [Recurrence.Has, hend]
    have hcard := hW.card_lt_iff hbefore (n := n)
    rw [Finset.card_image_of_injective _ hinj, hhas] at hcard
    simp only [Recurrence.Counts, hend, RecurrenceEnd.Lets]
    exact hcard

end Home.Agenda
