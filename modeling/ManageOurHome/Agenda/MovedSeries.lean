import ManageOurHome.Agenda.SeriesEdit
import ManageOurHome.Agenda.Weekly

/-! @src apps/web/src/routes/agenda/edit.rs, apps/api/src/agenda/events.rs | layer:proof | family:recurrence

    A whole series moved from one of its occurrences. The start moves by as many days as were typed, and takes the time
    typed; the rule stays. Each occurrence moves along exactly as long as the rule's days do: always by whole weeks, or
    when the rule has no weekdays of its own; a day off, the Mondays of a rule on Mondays stay Mondays.

        MO from 2026-09-07     M ● ─── M ● ─── M ●        typed 2026-09-08 for the first
        MO from 2026-09-08     T s     M ● ─── M ●        and not T ● ─── T ● ─── T ● -/

namespace Home.Agenda

open Events

variable {paris : Paris} {crate : Rrule} {format : Format} {r : Recurrence} {allDay : Bool} {start start' late d m w : ℤ}
  {W W' : ℕ → Option ℤ} {k : ℕ}

/-- Each occurrence of the series from `startsAt` stands, on the clocks of Paris, `δ` before that of the other one. -/
def MovedBy (paris : Paris) (crate : Rrule) (allDay : Bool) (rrule : Text) (startsAt : ℤ) (rrule' : Text)
    (startsAt' δ : ℤ) : Prop :=
  ∀ k t, (∃ o, IsOccurrence paris crate rrule allDay startsAt k o ∧ paris.local_ o = t) ↔
    ∃ o, IsOccurrence paris crate rrule' allDay startsAt' k o ∧ paris.local_ o = t + δ

/-- `typed` where the occurrence of the day `d` was `shown`, the rule of the series that starts at the wall clock `start`
    moves along with the series' own fields, from `moved.1` on: the bounds moved are in order, and not past `UNTIL`; up
    to the last occurrence each day is the series' exactly if the day as many days later is; and the clocks put off each
    occurrence and its moved one as they put off the one shown. -/
structure Carries (paris : Paris) (r : Recurrence) (allDay : Bool) (start d : ℤ) (shown typed : Field)
    (moved : Field × Field) : Prop where
  ordered : moved.1.wall ≤ moved.2.wall
  notPast : ∀ last, r.end_ = .Until last → paris.resolve moved.1.wall ≤ untilBound paris allDay last
  days : ∀ e, r.Counts start e →
    (r.Has paris allDay start e ↔ r.Has paris allDay moved.1.wall (e + (typed.day - d)))
  clocks : ∀ e, r.Counts start e → r.Has paris allDay start e →
    paris.putOff (onDay start e) - paris.putOff (onDay moved.1.wall (e + (typed.day - d))) = shown.wall - onDay start d

/-! ### Two starts of one rule -/

/-- How far the wall clocks of the days are moved. -/
def shiftOf (start start' m : ℤ) : ℤ := m * day + start' % day - start % day

theorem onDay_add_shiftOf (e : ℤ) : onDay start e + shiftOf start start' m = onDay start' (e + m) := by
  rw [onDay, onDay, shiftOf, add_mul]
  omega

theorem emod_add_shiftOf : (w + shiftOf start start' m) % day = start' % day ↔ w % day = start % day := by
  have hshift : w + shiftOf start start' m = (w + start' % day - start % day) + m * day := by
    rw [shiftOf]
    omega
  rw [hshift, Int.add_mul_emod_self_right]
  have hday : day = 86400000000000 := rfl
  rw [hday]
  omega

theorem RecurrenceEnd.lets_of_le {end_ : RecurrenceEnd} {j k : ℕ} (hjk : j ≤ k) (h : end_.Lets k) : end_.Lets j := by
  cases end_ with
  | Count n => exact hjk.trans_lt h
  | Never => trivial
  | Until d => trivial

section

variable (hW : Enumerates W {w | w % day = start % day ∧ r.Has paris allDay start (w / day)})
  (hW' : Enumerates W' {w | w % day = start' % day ∧ r.Has paris allDay start' (w / day)})

include hW hW'

/-- Two walks go side by side exactly if the days do. -/
theorem shifted_iff : (∀ k, r.end_.Lets k → W' k = (W k).map (· + shiftOf start start' m)) ↔
    ∀ e, r.Counts start e → (r.Has paris allDay start e ↔ r.Has paris allDay start' (e + m)) := by
  refine (hW.map_eq_iff hW' (OrderIso.addRight (shiftOf start start' m)) (p := r.end_.Lets)
    fun _ _ => RecurrenceEnd.lets_of_le).trans ?_
  constructor
  · intro hsets e hcounts
    have hmem := hsets (onDay start e) ((counts_iff hW).mp hcounts)
    rw [OrderIso.addRight_apply] at hmem
    simp only [Set.mem_ofPred_eq, onDay_add_shiftOf, onDay_emod, onDay_ediv, true_and] at hmem
    exact hmem
  · intro hdays a hreached
    rw [OrderIso.addRight_apply]
    simp only [Set.mem_ofPred_eq, emod_add_shiftOf]
    refine and_congr_right fun hmod => ?_
    rw [← onDay_of_emod hmod] at hreached ⊢
    rw [onDay_add_shiftOf, onDay_ediv, onDay_ediv]
    exact hdays _ ((counts_iff hW).mpr hreached)

omit hW' in
/-- What holds of the occurrences holds of the days they fall on. -/
theorem forall_occurrences_iff {P : ℤ → Prop} : (∀ k, r.end_.Lets k → ∀ w ∈ W k, P w) ↔
    ∀ e, r.Counts start e → r.Has paris allDay start e → P (onDay start e) := by
  constructor
  · intro hall e hcounts hhas
    obtain ⟨i, hi⟩ := (hW.mem (onDay start e)).mp ⟨onDay_emod start e, by rw [onDay_ediv]; exact hhas⟩
    obtain ⟨k, hk, hfrom⟩ := (counts_iff hW).mp hcounts
    refine hall i (RecurrenceEnd.lets_of_le ?_ hk) _ hi
    by_contra hki
    obtain ⟨b, hb⟩ := hW.some_of_le hi (not_le.mp hki).le
    exact absurd ((hW.lt_iff hb hi).mpr (not_le.mp hki)) (not_lt.mpr (hfrom b hb))
  · intro hdays k hk w hw
    obtain ⟨hmod, hhas⟩ := (hW.mem w).mpr ⟨k, hw⟩
    have hcounts : r.Counts start (w / day) := by
      refine (counts_iff hW).mpr ⟨k, hk, fun b hb => ?_⟩
      rw [onDay_of_emod hmod]
      exact (Option.some.inj (hw.symm.trans hb)).le
    have hP := hdays _ hcounts hhas
    rwa [onDay_of_emod hmod] at hP

/-- STEP: the occurrences move as the field was moved, exactly if the days do, and the clocks put off each occurrence
    and its moved one as they put off the one shown. -/
theorem moved_iff (hlate : -minute < late ∧ late ≤ hour) :
    (∀ k t, (r.end_.Lets k ∧ ∃ w ∈ W k, w + paris.putOff w = t) ↔
      (r.end_.Lets k ∧ ∃ w ∈ W' k, w + paris.putOff w = t + (shiftOf start start' m - late))) ↔
    (∀ e, r.Counts start e → (r.Has paris allDay start e ↔ r.Has paris allDay start' (e + m))) ∧
      ∀ e, r.Counts start e → r.Has paris allDay start e →
        paris.putOff (onDay start e) - paris.putOff (onDay start' (e + m)) = late := by
  have hclocks := forall_occurrences_iff hW
    (P := fun w => paris.putOff w - paris.putOff (w + shiftOf start start' m) = late)
  simp only [onDay_add_shiftOf] at hclocks
  rw [← shifted_iff hW hW', ← hclocks]
  constructor
  · intro hmoved
    have hboth : ∀ k, r.end_.Lets k → ∀ w ∈ W k, W' k = some (w + shiftOf start start' m) ∧
        paris.putOff w - paris.putOff (w + shiftOf start start' m) = late := by
      intro k hk w hw
      obtain ⟨-, w', hw', hplace⟩ := (hmoved k _).mp ⟨hk, w, hw, rfl⟩
      -- both are at the time of day of the moved start, and less than a day apart
      have hmod := ((hW.mem w).mpr ⟨k, hw⟩).1
      have hmod' := ((hW'.mem w').mpr ⟨k, hw'⟩).1
      have hshift : (w + shiftOf start start' m) % day = start' % day := emod_add_shiftOf.mpr hmod
      have hput := putOff_bound paris w
      have hput' := putOff_bound paris w'
      have hday : day = 86400000000000 := rfl
      have hhour : hour = 3600000000000 := rfl
      have hminute : minute = 60000000000 := rfl
      rw [hday] at hshift hmod'
      obtain rfl : w' = w + shiftOf start start' m := by omega
      exact ⟨hw', by omega⟩
    constructor
    · intro k hk
      cases hw : W k with
      | some w => exact (hboth k hk w hw).1
      | none =>
        rw [Option.map_none, Option.eq_none_iff_forall_ne_some]
        intro w' hw'
        obtain ⟨-, w, hw'', -⟩ := (hmoved k (w' + paris.putOff w' - (shiftOf start start' m - late))).mpr
          ⟨hk, w', hw', by omega⟩
        rw [hw] at hw''
        cases hw''
    · intro k hk w hw
      exact (hboth k hk w hw).2
  · rintro ⟨hshifted, hclock⟩ k t
    refine and_congr_right fun hk => ?_
    rw [hshifted k hk]
    simp only [Option.mem_def, Option.map_eq_some_iff]
    constructor
    · rintro ⟨w, hw, rfl⟩
      have := hclock k hk w hw
      exact ⟨_, ⟨w, hw, rfl⟩, by omega⟩
    · rintro ⟨_, ⟨w, hw, rfl⟩, hplace⟩
      have := hclock k hk w hw
      exact ⟨w, hw, by omega⟩

end

/-- By whole weeks, or without weekdays of its own, a rule without `UNTIL` moves along. -/
theorem Recurrence.has_moved (hend : ∀ last, r.end_ ≠ .Until last) (hmoves : m % 7 = 0 ∨ r.byday = [])
    (hstart : start' / day = start / day + m) (e : ℤ) :
    r.Has paris allDay start e ↔ r.Has paris allDay start' (e + m) := by
  have hnames : r.Names (start / day + m) (e + m) ↔ r.Names (start / day) e := by
    rcases hmoves with hweeks | hbyday
    · obtain ⟨n, rfl⟩ := Int.dvd_of_emod_eq_zero hweeks
      exact Recurrence.names_add_weeks n
    · exact Recurrence.names_add_of_byday hbyday m
  rw [Recurrence.Has, Recurrence.Has, hstart, hnames]
  cases hend' : r.end_ with
  | Until last => exact absurd hend' (hend last)
  | Never => rfl
  | Count n => rfl

/-! ### The fields -/

section

variable {Uuid : Type} {readDate : Text → Option ℤ} {series : EventRow Uuid} {form : EventForm} {assigneeIds : List Uuid}
  {choice : ScopeChoice} {body : UpdateEventRequest Uuid} {starts ends : Field} {s e startsAt endsAt : ℤ} {text : Text}

theorem earliest_of_parisLocalToUtc (h : parisLocalToUtc paris w = some s) : paris.earliest w = some s := by
  rw [parisLocalToUtc] at h
  cases hfirst : paris.earliest w with
  | some t =>
    rw [hfirst] at h
    exact h
  | none =>
    rw [hfirst] at h
    exact absurd (Zone.latest_eq_some.mp h).1 (Zone.earliest_eq_none.mp hfirst s)

/-- What two fields of one kind stand for. -/
theorem formBounds_eq_some (hstarts : starts.time.isNone = allDay) (hends : ends.time.isNone = allDay)
    (h : formBounds paris starts ends = some (s, e)) :
    paris.earliest starts.wall = some s ∧ (allDay = true → starts.wall % day = 0) ∧
      (s ≤ e ↔ starts.wall ≤ ends.wall) := by
  obtain ⟨first, start⟩ := starts
  obtain ⟨last, stop⟩ := ends
  cases allDay with
  | true =>
    obtain rfl := Option.isNone_iff_eq_none.mp hstarts
    obtain rfl := Option.isNone_iff_eq_none.mp hends
    simp only [formBounds, Option.bind_eq_bind, Option.bind_some, Option.isNone_none, Bool.or_self, true_and,
      Option.ite_none_left_eq_some, Option.some.injEq, Prod.mk.injEq] at h
    obtain ⟨hlt, rfl, rfl⟩ := h
    rw [startOfDay_le_iff, not_le] at hlt
    simp only [Field.wall, Option.map_none, Option.getD_none, add_zero]
    have hwall : first * day ≤ last * day := Int.mul_le_mul_of_nonneg_right (by omega) day_pos.le
    exact ⟨earliest_midnight paris first, fun _ => Int.mul_emod_left _ _, iff_of_true
      ((startOfDay_le_iff paris).mpr (by omega)) hwall⟩
  | false =>
    obtain ⟨t, rfl⟩ := Option.isSome_iff_exists.mp (Option.isNone_eq_false_iff.mp hstarts)
    obtain ⟨t', rfl⟩ := Option.isSome_iff_exists.mp (Option.isNone_eq_false_iff.mp hends)
    simp only [formBounds, Option.bind_eq_bind, Option.isNone_some, Bool.or_self, Bool.false_eq_true, false_and, if_false,
      Option.bind_eq_some_iff, Option.some.injEq, Prod.mk.injEq] at h
    obtain ⟨s', hs, e', he, rfl, rfl⟩ := h
    have hfirst := earliest_of_parisLocalToUtc hs
    have hlast := earliest_of_parisLocalToUtc he
    refine ⟨hfirst, fun h => absurd h Bool.false_ne_true, ?_⟩
    have hordered : ∀ {v v' x y : ℤ}, paris.earliest v = some x → paris.earliest v' = some y → v < v' → x < y := by
      intro v v' x y hx hy hlt
      rcases paris.resolve_order hlt with hbefore | ⟨hskip, -⟩
      · rwa [Zone.resolve_of_earliest hx, Zone.resolve_of_earliest hy] at hbefore
      · rw [hx] at hskip
        cases hskip
    constructor
    · intro hle
      by_contra hlt
      exact absurd (hordered hlast hfirst (not_le.mp hlt)) (not_lt.mpr hle)
    · intro hle
      rcases hle.eq_or_lt with heq | hlt
      · rw [heq, hlast] at hfirst
        exact (Option.some.inj hfirst).ge
      · exact (hordered hfirst hlast hlt).le

theorem seriesAnchor_normalizedBounds : seriesAnchor paris allDay (normalizedBounds paris allDay s e).1 =
    seriesAnchor paris allDay s := by
  cases allDay with
  | false => rfl
  | true => exact allDayAnchor_startOfDay paris _

/-- A series that starts at the wall clock `w` is anchored where it starts. -/
theorem seriesAnchor_of_earliest (h : paris.earliest w = some s) (hmidnight : allDay = true → w % day = 0) :
    seriesAnchor paris allDay s = s := by
  cases allDay with
  | false => rfl
  | true =>
    have hw : w = w / day * day := (Int.ediv_mul_cancel_of_emod_eq_zero (hmidnight rfl)).symm
    rw [hw, earliest_midnight] at h
    rw [← Option.some.inj h]
    exact allDayAnchor_startOfDay paris _

theorem firstPass_of_earliest (h : paris.earliest w = some s) :
    paris.local_ s = w ∧ paris.firstPassOfARepeatedHour s = paris.resolve w := by
  have hlocal : paris.local_ s = w := (Zone.earliest_eq_some.mp h).1
  have hfirst := earliest_local_eq paris s
  rw [hlocal, h] at hfirst
  rw [← Option.some.inj hfirst, Zone.resolve_of_earliest h]
  exact ⟨hlocal, rfl⟩

/-- The form shows the minute. -/
theorem toDatetimeLocal_wall (paris : Paris) (dt : ℤ) : paris.local_ dt - minute < (toDatetimeLocal paris dt).wall ∧
    (toDatetimeLocal paris dt).wall ≤ paris.local_ dt := by
  have hday := Int.ediv_mul_add_emod (paris.local_ dt) day
  have hminute := Int.ediv_mul_add_emod (paris.local_ dt % day) minute
  have hpos : (0 : ℤ) < minute := by decide
  have hmod := Int.emod_nonneg (paris.local_ dt % day) (ne_of_gt hpos)
  have hmod' := Int.emod_lt_of_pos (paris.local_ dt % day) hpos
  have hmod'' := Int.emod_nonneg (paris.local_ dt) (ne_of_gt day_pos)
  have hdiv : 0 ≤ paris.local_ dt % day / minute := Int.ediv_nonneg hmod'' hpos.le
  have hwall : (toDatetimeLocal paris dt).wall =
      paris.local_ dt / day * day + (paris.local_ dt % day / minute) * minute := by
    simp only [toDatetimeLocal, Field.wall, ClockTime.nanos, Paris.naiveLocal, Option.map_some, Option.getD_some,
      Option.getD_none, Int.toNat_of_nonneg hdiv, Nat.cast_zero, zero_mul, add_zero]
  rw [hwall]
  omega

/-- The occurrence opened, as the form shows it. -/
theorem shown_wall (hstart : start = paris.local_ (seriesAnchor paris series.allDay series.startsAt))
    (hopened : choice.occurrenceAt =
      (seriesKind paris series.allDay series.startsAt).place paris (paris.resolve (onDay start d))) :
    -minute < (occurrenceFieldValues paris series choice.occurrenceAt).1.wall - onDay start d ∧
      (occurrenceFieldValues paris series choice.occurrenceAt).1.wall - onDay start d ≤ hour := by
  have hput := putOff_bound paris (onDay start d)
  cases hallDay : series.allDay with
  | false =>
    rw [hallDay] at hopened
    have hlocal : paris.local_ choice.occurrenceAt = onDay start d + paris.putOff (onDay start d) := by
      rw [hopened]
      refine local_place fun hkind => ?_
      rw [seriesKind_false] at hkind
      split at hkind <;> cases hkind
    have hshown := toDatetimeLocal_wall paris choice.occurrenceAt
    simp only [occurrenceFieldValues, hallDay, fieldValues, Bool.false_eq_true, if_false]
    omega
  | true =>
    rw [hallDay] at hopened hstart
    have hmod : onDay start d % day = 0 := by
      rw [onDay_emod, hstart]
      exact local_startOfDay_mod paris _
    have hday : onDay start d = d * day := by
      have hdiv := (Int.ediv_mul_cancel_of_emod_eq_zero hmod).symm
      rwa [onDay_ediv] at hdiv
    have hdate : paris.date choice.occurrenceAt = d := by
      rw [hopened, hday, resolve_midnight]
      exact (date_place _ _).trans (date_startOfDay paris d)
    have hminute : (0 : ℤ) < minute := by decide
    have hhour := hour_pos
    simp only [occurrenceFieldValues, hallDay, if_true, Field.wall, hdate, hday, Option.map_none, Option.getD_none]
    omega

/-! ### The request -/

theorem buildRrule_ne_nil (r : Recurrence) : buildRrule format r ≠ [] := by
  have hlength : ∀ parts : List Text, List.intercalate [';'] (["FREQ=".toList ++ freqToken r.freq] ++ parts) ≠ [] := by
    intro parts
    cases parts with
    | nil => simp
    | cons part parts => simp [List.intercalate_cons_cons]
  have hparts : ∃ parts, stepParts r = ["FREQ=".toList ++ freqToken r.freq] ++ parts := by
    simp only [stepParts]
    split_ifs <;> exact ⟨_, by simp; rfl⟩
  obtain ⟨parts, hparts⟩ := hparts
  rw [buildRrule, hparts, List.append_assoc]
  exact hlength _

/-- Typed for the whole series, its rule as it is: the series' own fields moved, and no rule. -/
theorem submitted_all (hscope : choice.scope = .All) (hrule : rruleFromForm format form = .ok (some text))
    (hseries : series.rrule = some text) (htext : text ≠ []) (hallDay : form.allDay = series.allDay)
    (htyped : ¬(form.startsAt = (occurrenceFieldValues paris series choice.occurrenceAt).1 ∧
      form.endsAt = (occurrenceFieldValues paris series choice.occurrenceAt).2))
    (h : submitted paris readDate format form assigneeIds choice series = .ok body) :
    ∃ s e, formBounds paris (seriesFields paris form series choice.occurrenceAt).1
        (seriesFields paris form series choice.occurrenceAt).2 = some (s, e) ∧
      (trim form.title).isEmpty = false ∧ body.title = some (trim form.title) ∧ body.startsAt = some s ∧
      body.endsAt = some e ∧ body.allDay = some series.allDay ∧ body.rrule = none ∧ body.completed = none := by
  obtain ⟨whole, hwhole, hbody⟩ := bind_eq_ok.mp h
  rw [updateRequest] at hwhole
  obtain ⟨⟨s₀, e₀⟩, -, hwhole⟩ := bind_eq_ok.mp hwhole
  obtain ⟨_, htitle, hwhole⟩ := bind_eq_ok.mp hwhole
  rw [hrule] at hwhole
  obtain rfl := (Except.ok.inj hwhole).symm
  have huntouched : ¬(form.startsAt = (occurrenceFieldValues paris series choice.occurrenceAt).1 ∧
      form.endsAt = (occurrenceFieldValues paris series choice.occurrenceAt).2 ∧ form.allDay = series.allDay) :=
    fun hsame => htyped ⟨hsame.1, hsame.2.1⟩
  have hnonempty : (trim form.title).isEmpty = false := by
    rw [validateEventForm] at htitle
    split at htitle
    · cases htitle
    · exact Bool.eq_false_iff.mpr ‹_›
  have hsame : sameRule readDate (some text) series = true := by
    rw [sameRule, hseries, Option.filter_some, if_pos (by simpa using htext)]
    simp
  simp only [scopedRequest, scopedTimes, if_neg huntouched, hscope, if_true] at hbody
  cases hmoved : formBounds paris (seriesFields paris form series choice.occurrenceAt).1
      (seriesFields paris form series choice.occurrenceAt).2 with
  | none =>
    rw [hmoved] at hbody
    cases hbody
  | some moved =>
    rw [hmoved] at hbody
    simp only [Option.bind_eq_bind, Option.bind_some, wholeEventRequest, Option.getD_some, hsame, if_true,
      Option.pure_def] at hbody
    obtain rfl := Except.ok.inj hbody
    exact ⟨moved.1, moved.2, rfl, hnonempty, rfl, rfl, rfl, congrArg some hallDay, rfl, rfl⟩

/-- What the API makes of it: the bounds are refused out of order, and the rule on a start past its end. -/
theorem validUpdate_iff {crate : Rrule} {moved : ℤ × ℤ × Option Text} (hseries : series.rrule = some text)
    (hnonempty : (trim form.title).isEmpty = false) (htitle : body.title = some (trim form.title))
    (hstarts : body.startsAt = some s) (hends : body.endsAt = some e) (hallDay : body.allDay = some series.allDay)
    (hrule : body.rrule = none) (hcompleted : body.completed = none) :
    validUpdate paris crate series body = .ok moved ↔
      (s ≤ e ∧ (validate paris crate text s series.allDay).isOk) ∧
        ((normalizedBounds paris series.allDay s e).1, (normalizedBounds paris series.allDay s e).2, some text) = moved := by
  rw [validUpdate, htitle, hstarts, hends, hallDay, hrule, hcompleted, hseries]
  simp only [Option.getD_some, validateRequest, Option.any_some, trim_trim, hnonempty, Bool.false_eq_true, if_false,
    Option.isSome_none, Bool.false_and]
  by_cases hle : s ≤ e
  · rw [if_neg (not_lt.mpr hle)]
    cases hvalid : validate paris crate text s series.allDay with
    | ok _ => simp [orInvalidRrule, hle, bind, Except.bind, pure, Except.pure]
    | error _ => simp [orInvalidRrule, bind, Except.bind]
  · rw [if_pos (not_le.mp hle)]
    simp [hle, bind, Except.bind, throw, throwThe, MonadExceptOf.throw]

theorem wall_emod (f : Field) : f.wall = f.day * day + f.wall % day := by
  have htime : 0 ≤ (f.time.map ClockTime.nanos).getD 0 ∧ (f.time.map ClockTime.nanos).getD 0 < day := by
    cases f.time with
    | none => exact ⟨le_refl 0, day_pos⟩
    | some t =>
      obtain ⟨hminutes, hseconds⟩ := t.valid
      have hsecond : t.seconds.getD 0 < 60 := by
        cases hs : t.seconds with
        | none => decide
        | some s => exact hseconds s hs
      have hday : day = 86400000000000 := rfl
      have hminute : minute = 60000000000 := rfl
      have hnanos : second = 1000000000 := rfl
      rw [Option.map_some, Option.getD_some, ClockTime.nanos, hday, hminute, hnanos]
      omega
  have hmod : f.wall % day = (f.time.map ClockTime.nanos).getD 0 := by
    rw [Field.wall, add_comm, Int.add_mul_emod_self_right, Int.emod_eq_of_lt htime.1 htime.2]
  rw [hmod]
  rfl

/-- Fields with one time part are at one time of day. -/
theorem wall_emod_eq {f g : Field} (h : f.time = g.time) : f.wall % day = g.wall % day := by
  rw [Field.wall, Field.wall, h, add_comm, Int.add_mul_emod_self_right, add_comm (g.day * day),
    Int.add_mul_emod_self_right]

section

variable (hcrate : crate.ReadsWeekly paris format r)
  (hvalid : (validate paris crate (buildRrule format r) series.startsAt series.allDay).isOk)
  (hseries : series.rrule = some (buildRrule format r)) (hscope : choice.scope = .All)
  (hrule : rruleFromForm format form = .ok (some (buildRrule format r))) (hallDay : form.allDay = series.allDay)
  (hstarts : form.startsAt.time.isNone = series.allDay) (hends : form.endsAt.time.isNone = series.allDay)
  (htyped : ¬(form.startsAt = (occurrenceFieldValues paris series choice.occurrenceAt).1 ∧
    form.endsAt = (occurrenceFieldValues paris series choice.occurrenceAt).2))
  (hsubmitted : submitted paris readDate format form assigneeIds choice series = .ok body)

include hcrate hvalid hseries hscope hrule hallDay hstarts hends htyped hsubmitted

/-- When the API takes what is submitted, and where it puts the start. -/
theorem validUpdate_submitted : ∃ s e, paris.local_ (seriesAnchor paris series.allDay s) =
      (seriesFields paris form series choice.occurrenceAt).1.wall ∧
    ((∀ last, r.end_ = .Until last → paris.resolve (seriesFields paris form series choice.occurrenceAt).1.wall ≤
      untilBound paris series.allDay last) → (validate paris crate (buildRrule format r) s series.allDay).isOk) ∧
    ∀ updated, validUpdate paris crate series body = .ok updated ↔
      ((seriesFields paris form series choice.occurrenceAt).1.wall ≤
          (seriesFields paris form series choice.occurrenceAt).2.wall ∧
        ∀ last, r.end_ = .Until last → paris.resolve (seriesFields paris form series choice.occurrenceAt).1.wall ≤
          untilBound paris series.allDay last) ∧ (s, e, some (buildRrule format r)) = updated := by
  obtain ⟨s, e, hbounds, hnonempty, htitle, hs, he, hall, hrr, hcompleted⟩ :=
    submitted_all hscope hrule hseries (buildRrule_ne_nil r) hallDay htyped hsubmitted
  have htime : (seriesFields paris form series choice.occurrenceAt).1.time = form.startsAt.time := rfl
  have htime' : (seriesFields paris form series choice.occurrenceAt).2.time = form.endsAt.time := rfl
  generalize seriesFields paris form series choice.occurrenceAt = moved at *
  obtain ⟨hearliest, hmidnight, hordered⟩ := formBounds_eq_some (htime ▸ hstarts) (htime' ▸ hends) hbounds
  have hself := seriesAnchor_of_earliest hearliest hmidnight
  obtain ⟨hlocal, hfirst⟩ := firstPass_of_earliest hearliest
  have hnormalized : seriesAnchor paris series.allDay (normalizedBounds paris series.allDay s e).1 = s :=
    seriesAnchor_normalizedBounds.trans hself
  refine ⟨(normalizedBounds paris series.allDay s e).1, (normalizedBounds paris series.allDay s e).2,
    by rw [hnormalized, hlocal], fun hnotPast => ?_, fun updated => ?_⟩
  · rw [hcrate.validate_isOk hvalid, hnormalized, hfirst]
    exact hnotPast
  · rw [validUpdate_iff hseries hnonempty htitle hs he hall hrr hcompleted, hordered, hcrate.validate_isOk hvalid s,
      hself, hfirst]

/-- The occurrences of the series updated, by the days they fall on. -/
theorem occurrences_updated {rrule : Text}
    (hupdate : validUpdate paris crate series body = .ok (startsAt, endsAt, some rrule)) :
    ∃ W, Enumerates W {w | w % day = (seriesFields paris form series choice.occurrenceAt).1.wall % day ∧
        r.Has paris series.allDay (seriesFields paris form series choice.occurrenceAt).1.wall (w / day)} ∧
      ∀ k t, (∃ o, IsOccurrence paris crate rrule series.allDay startsAt k o ∧ paris.local_ o = t) ↔
        r.end_.Lets k ∧ ∃ w ∈ W k, w + paris.putOff w = t := by
  obtain ⟨s, e, hlocal, hok, hiff⟩ := validUpdate_submitted hcrate hvalid hseries hscope hrule hallDay hstarts hends
    htyped hsubmitted
  obtain ⟨⟨-, hnotPast⟩, heq⟩ := (hiff _).mp hupdate
  simp only [Prod.mk.injEq, Option.some.injEq] at heq
  obtain ⟨rfl, rfl, rfl⟩ := heq
  exact hcrate.occurrences (hok hnotPast) hlocal.symm

/-- STEP: once updated, the series is moved as the fields were exactly if its days and its clocks are. -/
theorem movedBy_iff {rrule : Text} (hstart : start = paris.local_ (seriesAnchor paris series.allDay series.startsAt))
    (hopened : choice.occurrenceAt =
      (seriesKind paris series.allDay series.startsAt).place paris (paris.resolve (onDay start d)))
    (hupdate : validUpdate paris crate series body = .ok (startsAt, endsAt, some rrule)) :
    MovedBy paris crate series.allDay (buildRrule format r) series.startsAt rrule startsAt
        (form.startsAt.wall - (occurrenceFieldValues paris series choice.occurrenceAt).1.wall) ↔
      (∀ e, r.Counts start e → (r.Has paris series.allDay start e ↔ r.Has paris series.allDay
          (seriesFields paris form series choice.occurrenceAt).1.wall (e + (form.startsAt.day - d)))) ∧
        ∀ e, r.Counts start e → r.Has paris series.allDay start e → paris.putOff (onDay start e) - paris.putOff
            (onDay (seriesFields paris form series choice.occurrenceAt).1.wall (e + (form.startsAt.day - d))) =
          (occurrenceFieldValues paris series choice.occurrenceAt).1.wall - onDay start d := by
  have hlate := shown_wall hstart hopened
  have hδ : form.startsAt.wall - (occurrenceFieldValues paris series choice.occurrenceAt).1.wall =
      shiftOf start (seriesFields paris form series choice.occurrenceAt).1.wall (form.startsAt.day - d) -
        ((occurrenceFieldValues paris series choice.occurrenceAt).1.wall - onDay start d) := by
    have hwall := wall_emod form.startsAt
    have htime : (seriesFields paris form series choice.occurrenceAt).1.time = form.startsAt.time := rfl
    rw [← wall_emod_eq htime] at hwall
    rw [hwall, shiftOf, onDay, sub_mul]
    omega
  obtain ⟨W, hW, hoccurrences⟩ := hcrate.occurrences hvalid hstart
  obtain ⟨W', hW', hoccurrences'⟩ := occurrences_updated hcrate hvalid hseries hscope hrule hallDay hstarts hends htyped
    hsubmitted hupdate
  rw [MovedBy, hδ]
  simp only [hoccurrences, hoccurrences']
  exact moved_iff hW hW' hlate

/-- CORRECT: a whole series moved from one of its occurrences has each occurrence where it was, moved as the fields were,
    exactly if its rule moves along. -/
theorem moves_along_iff (hstart : start = paris.local_ (seriesAnchor paris series.allDay series.startsAt))
    (hopened : choice.occurrenceAt =
      (seriesKind paris series.allDay series.startsAt).place paris (paris.resolve (onDay start d))) :
    (∃ startsAt endsAt rrule, validUpdate paris crate series body = .ok (startsAt, endsAt, some rrule) ∧
      MovedBy paris crate series.allDay (buildRrule format r) series.startsAt rrule startsAt
        (form.startsAt.wall - (occurrenceFieldValues paris series choice.occurrenceAt).1.wall)) ↔
    Carries paris r series.allDay start d (occurrenceFieldValues paris series choice.occurrenceAt).1 form.startsAt
      (seriesFields paris form series choice.occurrenceAt) := by
  obtain ⟨s, e, -, -, hiff⟩ := validUpdate_submitted hcrate hvalid hseries hscope hrule hallDay hstarts hends htyped
    hsubmitted
  constructor
  · rintro ⟨startsAt, endsAt, rrule, hupdate, hmovedBy⟩
    obtain ⟨⟨hordered, hnotPast⟩, -⟩ := (hiff _).mp hupdate
    obtain ⟨hdays, hclocks⟩ := (movedBy_iff hcrate hvalid hseries hscope hrule hallDay hstarts hends htyped hsubmitted
      hstart hopened hupdate).mp hmovedBy
    exact ⟨hordered, hnotPast, hdays, hclocks⟩
  · intro h
    have hupdate := (hiff (s, e, some (buildRrule format r))).mpr ⟨⟨h.ordered, h.notPast⟩, rfl⟩
    exact ⟨s, e, buildRrule format r, hupdate, (movedBy_iff hcrate hvalid hseries hscope hrule hallDay hstarts hends
      htyped hsubmitted hstart hopened hupdate).mpr ⟨h.days, h.clocks⟩⟩

end

end

/-! ### On Mondays -/

/-- Every Monday. -/
def onMondays : Recurrence := ⟨.Weekly, 1, [.Mon], .Never⟩

/-- chrono is not asked: the rule has no end. -/
def mondaysFormat : Format := ⟨fun _ => [], fun _ => []⟩

/-- The Mondays from the wall clock `w`. -/
def mondaysFrom (w : ℤ) : Walk where
  wall i := some (onDay w (mondayOf (w / day + 6) + 7 * i))
  ended i h := absurd h (by simp)
  increasing i w₁ w₂ h₁ h₂ := by
    obtain rfl := Option.some.inj h₁
    obtain rfl := Option.some.inj h₂
    rw [onDay_lt_iff]
    push_cast
    omega

/-- `rrule` on `FREQ=WEEKLY;BYDAY=MO`, with its `COUNT` and its `UNTIL`. -/
def mondaysCrate : Rrule where
  Rule := Option ℕ × Option Until
  Error := Unit
  invalidParameterFormat _ := ()
  parse text := if text = "FREQ=WEEKLY;BYDAY=MO".toList then .ok (none, none) else .error ()
  getFreq _ := .Weekly
  getByHour _ := []
  getByMinute _ := []
  getBySecond _ := []
  getCount rule := rule.1
  count n rule := (some n, rule.2)
  getUntil rule := rule.2
  until_ u rule := (rule.1, some u)
  build rule anchor :=
    let walk := mondaysFrom (europeParis.local_ anchor)
    let walk := rule.1.elim walk walk.take
    match rule.2 with
    | none => .ok walk
    | some u => if u.instant < anchor then .error () else .ok (walk.upTo europeParis u.instant)

theorem buildRrule_onMondays : buildRrule mondaysFormat onMondays = "FREQ=WEEKLY;BYDAY=MO".toList := by
  have hsort : onMondays.byday.mergeSort (fun a b => WEEKDAYS.idxOf a ≤ WEEKDAYS.idxOf b) = [.Mon] :=
    List.mergeSort_singleton _
  rw [buildRrule, stepParts, if_pos (by decide), if_neg (by decide), hsort]
  decide

theorem parse_mondays : mondaysCrate.parse (buildRrule mondaysFormat onMondays) = .ok (none, none) := by
  rw [buildRrule_onMondays]
  simp [mondaysCrate]

theorem names_onMondays {a d : ℤ} : onMondays.Names a d ↔ a ≤ d ∧ (d + 3) % 7 = 0 := by
  have hmonday : ∀ i < 7, WEEKDAYS.getD i .Mon = .Mon ↔ i = 0 := by decide
  have hmod := Int.emod_nonneg (d + 3) (by decide : (7 : ℤ) ≠ 0)
  have hevery : ((max onMondays.interval 1 : ℕ) : ℤ) = 1 := rfl
  have hbyday : onMondays.byday = [.Mon] := rfl
  rw [Recurrence.Names, hevery, Int.emod_one, hbyday, if_neg (List.cons_ne_nil _ _), List.mem_singleton, weekdayOf,
    numDaysFromMonday, hmonday _ (by omega)]
  refine and_congr_right fun _ => ?_
  constructor
  · rintro ⟨-, h⟩
    omega
  · intro h
    exact ⟨rfl, by omega⟩

theorem mem_mondaysFrom {w w' : ℤ} : (∃ i, (mondaysFrom w).wall i = some w') ↔
    w' % day = w % day ∧ onMondays.Names (w / day) (w' / day) := by
  rw [names_onMondays]
  have hfirst : mondayOf (w / day + 6) = w / day + 6 - (w / day + 9) % 7 := by
    rw [mondayOf, numDaysFromMonday, add_assoc]
    rfl
  constructor
  · rintro ⟨i, hi⟩
    obtain rfl := Option.some.inj hi
    rw [onDay_emod, onDay_ediv, hfirst]
    exact ⟨rfl, by omega, by omega⟩
  · rintro ⟨hmod, hle, hmonday⟩
    refine ⟨((w' / day - mondayOf (w / day + 6)) / 7).toNat, congrArg some ?_⟩
    have hday : mondayOf (w / day + 6) + 7 * (((w' / day - mondayOf (w / day + 6)) / 7).toNat : ℤ) = w' / day := by
      rw [hfirst]
      omega
    rw [hday, onDay_of_emod hmod]

theorem mondaysCrate_readsWeekly : mondaysCrate.ReadsWeekly europeParis mondaysFormat onMondays where
  weekly := rfl
  count_le n h := by cases h
  parse_end rule' h := ⟨rule', h, rfl⟩
  endless rule h := by
    obtain rfl := Except.ok.inj (parse_mondays.symm.trans h)
    exact ⟨rfl, rfl⟩
  build rule anchor h := by
    obtain rfl := Except.ok.inj (parse_mondays.symm.trans h)
    exact ⟨_, rfl, fun w => mem_mondaysFrom⟩
  getCount_count _ _ := rfl
  getUntil_count _ _ := rfl
  count_count _ _ _ := rfl
  getCount_until _ _ := rfl
  getUntil_until _ _ := rfl
  until_until _ _ _ := rfl
  build_count n rule anchor hcount huntil := by
    obtain ⟨c, u⟩ := rule
    obtain rfl : c = none := hcount
    obtain rfl : u = none := huntil
    rfl
  build_until u rule anchor hcount huntil hle := by
    obtain ⟨c, u'⟩ := rule
    obtain rfl : c = none := hcount
    obtain rfl : u' = none := huntil
    exact if_neg (not_lt.mpr hle)
  until_past u rule anchor hlt := by
    have herror : mondaysCrate.build (mondaysCrate.until_ ⟨u, true⟩ rule) anchor = .error () := if_pos hlt
    rw [herror]
    exact Bool.false_ne_true

/-- All day, from 2026-09-07. -/
def chores : EventRow Unit :=
  ⟨(), (), "Poubelles".toList, none, none, europeParis.startOfDay 20703, europeParis.startOfDay 20704, true, false, none,
    some (buildRrule mondaysFormat onMondays), false, []⟩

/-- Opened on 2026-09-21. -/
def thirdMonday : ScopeChoice := ⟨europeParis.startOfDay 20717, .All⟩

/-- Typed for that occurrence: another day. -/
def typedDay (m : ℤ) : EventForm :=
  ⟨"Poubelles".toList, [], [], ⟨m, none⟩, ⟨m, none⟩, true, .ok (some onMondays), false, false⟩

theorem allDayFieldValues_startOfDay (paris : Paris) (d : ℤ) :
    allDayFieldValues paris (paris.startOfDay d) (paris.startOfDay (d + 1)) = (⟨d, none⟩, ⟨d, none⟩) := by
  rw [allDayFieldValues, normalizeAllDay_startOfDay (by omega)]
  simp only [date_startOfDay, add_sub_cancel_right]

theorem fieldValues_chores :
    fieldValues europeParis true chores.startsAt chores.endsAt = (⟨20703, none⟩, ⟨20703, none⟩) :=
  allDayFieldValues_startOfDay europeParis 20703

theorem shown_chores :
    occurrenceFieldValues europeParis chores thirdMonday.occurrenceAt = (⟨20717, none⟩, ⟨20717, none⟩) := by
  have hallDay : chores.allDay = true := rfl
  have hdate : europeParis.date thirdMonday.occurrenceAt = 20717 := date_startOfDay europeParis 20717
  rw [occurrenceFieldValues, if_pos hallDay, fieldValues_chores, hdate]
  rfl

theorem seriesFields_chores (m : ℤ) :
    seriesFields europeParis (typedDay m) chores thirdMonday.occurrenceAt = (⟨m - 14, none⟩, ⟨m - 14, none⟩) := by
  have hrebased : rebased ⟨m, none⟩ ⟨20717, none⟩ ⟨20703, none⟩ = ⟨m - 14, none⟩ := by
    have hday : (20703 : ℤ) + (m - 20717) = m - 14 := by omega
    exact congrArg (Field.mk · none) hday
  have hown : fieldValues europeParis chores.allDay chores.startsAt chores.endsAt = (⟨20703, none⟩, ⟨20703, none⟩) :=
    fieldValues_chores
  rw [seriesFields, shown_chores, hown]
  exact Prod.ext hrebased hrebased

theorem validate_chores :
    (validate europeParis mondaysCrate (buildRrule mondaysFormat onMondays) chores.startsAt chores.allDay).isOk := by
  have hone : oneValue (buildRrule mondaysFormat onMondays) = true := by
    rw [buildRrule_onMondays]
    decide
  have hparse : parseRule mondaysCrate (buildRrule mondaysFormat onMondays) = .ok (none, none) := by
    refine parseRule_eq_ok.mpr ⟨?_, parse_mondays⟩
    rw [buildRrule_onMondays]
    decide
  rw [validate_isOk, seriesRuleSet_eq hparse]
  exact ⟨hone, fun _ => ⟨_, hparse, rfl⟩, rfl⟩

theorem formBounds_dates (paris : Paris) (d : ℤ) :
    formBounds paris ⟨d, none⟩ ⟨d, none⟩ = some (paris.startOfDay d, paris.startOfDay (d + 1)) := by
  have hlt := startOfDay_lt paris (by omega : d < d + 1)
  simp [formBounds, hlt]

theorem typed_chores {m : ℤ} (h : m ≠ 20717) :
    ¬((typedDay m).startsAt = (occurrenceFieldValues europeParis chores thirdMonday.occurrenceAt).1 ∧
      (typedDay m).endsAt = (occurrenceFieldValues europeParis chores thirdMonday.occurrenceAt).2) := by
  rw [shown_chores]
  rintro ⟨hsame, -⟩
  exact h (congrArg Field.day hsame)

theorem submitted_chores {m : ℤ} (h : m ≠ 20717) : ∃ body,
    submitted europeParis (fun _ => none) mondaysFormat (typedDay m) [] thirdMonday chores = .ok body := by
  have hbounds : formBounds europeParis (typedDay m).startsAt (typedDay m).endsAt =
      some (europeParis.startOfDay m, europeParis.startOfDay (m + 1)) := formBounds_dates europeParis m
  have htitle : validateEventForm (typedDay m).title (europeParis.startOfDay m) (europeParis.startOfDay (m + 1)) =
      .ok () := by
    have hlt := startOfDay_lt europeParis (by omega : m < m + 1)
    have hnonempty : ¬(trim "Poubelles".toList).isEmpty = true := by decide
    exact (if_neg hnonempty).trans (if_neg (not_lt.mpr hlt.le))
  obtain ⟨whole, hwhole⟩ : ∃ whole : UpdateEventRequest Unit,
      updateRequest europeParis mondaysFormat (typedDay m) [] = .ok whole := by
    rw [updateRequest, hbounds]
    dsimp only [okOr, bind, Except.bind]
    rw [htitle]
    exact ⟨_, rfl⟩
  have huntouched : ¬((typedDay m).startsAt = (occurrenceFieldValues europeParis chores thirdMonday.occurrenceAt).1 ∧
      (typedDay m).endsAt = (occurrenceFieldValues europeParis chores thirdMonday.occurrenceAt).2 ∧
      (typedDay m).allDay = chores.allDay) := fun hsame => typed_chores h ⟨hsame.1, hsame.2.1⟩
  have hscope : thirdMonday.scope = .All := rfl
  obtain ⟨times, htimes⟩ : ∃ times, scopedTimes europeParis whole thirdMonday (typedDay m) chores = some times := by
    rw [scopedTimes]
    dsimp only
    rw [if_neg huntouched, if_pos hscope, seriesFields_chores, formBounds_dates]
    exact ⟨_, rfl⟩
  rw [submitted, hwhole]
  dsimp only [bind, Except.bind]
  rw [scopedRequest, htimes]
  exact ⟨_, rfl⟩

theorem wall_date (d : ℤ) : (⟨d, none⟩ : Field).wall = d * day := by
  rw [Field.wall, Option.map_none, Option.getD_none, add_zero]

theorem onDay_midnight (e d : ℤ) : onDay (e * day) d = d * day := by
  rw [onDay, Int.mul_emod_left, add_zero]

theorem putOff_midnight (paris : Paris) (d : ℤ) : paris.putOff (d * day) = 0 := by
  rw [Paris.putOff, resolve_midnight, local_startOfDay, sub_self]

theorem has_onMondays {a d : ℤ} : onMondays.Has europeParis chores.allDay (a * day) d ↔ a ≤ d ∧ (d + 3) % 7 = 0 := by
  rw [← names_onMondays, Recurrence.Has, Int.mul_ediv_cancel _ (ne_of_gt day_pos)]
  exact and_iff_left trivial

theorem start_chores : 20703 * day = europeParis.local_ (seriesAnchor europeParis chores.allDay chores.startsAt) := by
  have hanchor : seriesAnchor europeParis chores.allDay chores.startsAt = europeParis.startOfDay 20703 :=
    allDayAnchor_startOfDay europeParis 20703
  rw [hanchor, local_startOfDay]

theorem thirdMonday_chores : thirdMonday.occurrenceAt =
    (seriesKind europeParis chores.allDay chores.startsAt).place europeParis
      (europeParis.resolve (onDay (20703 * day) 20717)) := by
  have hkind : seriesKind europeParis chores.allDay chores.startsAt = .allDay := if_pos rfl
  rw [hkind, onDay_midnight, resolve_midnight]
  exact (congrArg europeParis.startOfDay (date_startOfDay europeParis 20717)).symm

/-- Typed a week later, on 2026-09-28. -/
theorem moves_along_a_week : ∃ body,
    submitted europeParis (fun _ => none) mondaysFormat (typedDay 20724) [] thirdMonday chores = .ok body ∧
    ∃ startsAt endsAt rrule, validUpdate europeParis mondaysCrate chores body = .ok (startsAt, endsAt, some rrule) ∧
    MovedBy europeParis mondaysCrate chores.allDay (buildRrule mondaysFormat onMondays) chores.startsAt rrule startsAt
      ((typedDay 20724).startsAt.wall - (occurrenceFieldValues europeParis chores thirdMonday.occurrenceAt).1.wall) := by
  obtain ⟨body, hbody⟩ := submitted_chores (m := 20724) (by decide)
  refine ⟨body, hbody, (moves_along_iff mondaysCrate_readsWeekly validate_chores rfl rfl rfl rfl rfl rfl
    (typed_chores (by decide)) hbody start_chores thirdMonday_chores).mpr ?_⟩
  rw [seriesFields_chores, shown_chores]
  have hday : (typedDay 20724).startsAt.day - 20717 = 7 := rfl
  have hstart : (20724 - 14) * day / day = 20703 * day / day + 7 := by
    rw [Int.mul_ediv_cancel _ (ne_of_gt day_pos), Int.mul_ediv_cancel _ (ne_of_gt day_pos)]
    rfl
  refine ⟨le_refl _, (by intro last h; cases h), fun e _ => ?_, fun e _ _ => ?_⟩
  · rw [wall_date, hday]
    exact Recurrence.has_moved (by intro last h; cases h) (.inl rfl) hstart e
  · rw [wall_date, wall_date, onDay_midnight, onDay_midnight, onDay_midnight, putOff_midnight, putOff_midnight, sub_self]
    exact (sub_self _).symm

/-- Typed a day later, on Tuesday 2026-09-22: it is accepted, and the Mondays stay Mondays. -/
theorem mondays_stay : ∃ body,
    submitted europeParis (fun _ => none) mondaysFormat (typedDay 20718) [] thirdMonday chores = .ok body ∧
    ∃ startsAt endsAt rrule, validUpdate europeParis mondaysCrate chores body = .ok (startsAt, endsAt, some rrule) ∧
    ¬MovedBy europeParis mondaysCrate chores.allDay (buildRrule mondaysFormat onMondays) chores.startsAt rrule startsAt
      ((typedDay 20718).startsAt.wall - (occurrenceFieldValues europeParis chores thirdMonday.occurrenceAt).1.wall) := by
  obtain ⟨body, hbody⟩ := submitted_chores (m := 20718) (by decide)
  have htyped := typed_chores (m := 20718) (by decide)
  obtain ⟨s, e, -, -, hiff⟩ := validUpdate_submitted mondaysCrate_readsWeekly validate_chores rfl rfl rfl rfl rfl rfl
    htyped hbody
  have hupdate : validUpdate europeParis mondaysCrate chores body =
      .ok (s, e, some (buildRrule mondaysFormat onMondays)) := by
    refine (hiff _).mpr ⟨⟨?_, by intro last h; cases h⟩, rfl⟩
    rw [seriesFields_chores]
  refine ⟨body, hbody, s, e, _, hupdate, fun hmoved => ?_⟩
  have hdays := ((movedBy_iff mondaysCrate_readsWeekly validate_chores rfl rfl rfl rfl rfl rfl htyped hbody start_chores
    thirdMonday_chores hupdate).mp hmoved).1 20703 trivial
  have hday : (typedDay 20718).startsAt.day = 20718 := rfl
  rw [seriesFields_chores, wall_date, has_onMondays, has_onMondays, hday] at hdays
  omega

end Home.Agenda
