import Mathlib.Logic.Relation
import ManageOurHome.Agenda.Reminders

/-! @src apps/api/src/agenda/reminders.rs, apps/api/src/jobs/scheduled_notifications.rs | layer:proof | family:reminders

    An occurrence is scheduled by the first refill whose window holds it; the windows move forward, so one that holds it
    is followed by windows that do until it starts. It is on time when the last moment that can be without a refill
    holds it already: an hour before it must be there, the creation if that is later.

        o - 30 days ─────────────────── o        the windows that hold o begin here
             fire_at = o - offset ── o           30 days or less before o: in time
        fire_at ── o - 30 days ───── o           more: its row comes after its time -/

namespace Home.Agenda

open Relation

variable {paris : Paris} {crate : Rrule} {event : EventTimes} {offsetMinutes now : ℤ} {rows : List ScheduledNotification}
  {s s' : Reminded} {o : ℤ}

/-! ### The rows -/

/-- `o` has its row. -/
def Scheduled (rows : List ScheduledNotification) (o : ℤ) : Prop := ∃ r ∈ rows, r.occurrenceAt = o

theorem any_eq_true : (rows.any fun r => r.occurrenceAt = o) = true ↔ Scheduled rows o := by
  simp [Scheduled]

theorem schedule_of_scheduled (h : Scheduled rows o) : schedule offsetMinutes now rows o = rows := by
  rw [schedule, if_pos (any_eq_true.mpr h)]

theorem schedule_of_not (h : ¬Scheduled rows o) :
    schedule offsetMinutes now rows o = rows ++ [⟨o, fireAt offsetMinutes o, now⟩] := by
  rw [schedule, if_neg (any_eq_true.not.mpr h)]

/-- What the rows are: one an occurrence, each where its occurrence puts it, written by `now`. -/
structure Filled (offsetMinutes now : ℤ) (rows : List ScheduledNotification) : Prop where
  nodup : (rows.map ScheduledNotification.occurrenceAt).Nodup
  fireAt : ∀ r ∈ rows, r.fireAt = fireAt offsetMinutes r.occurrenceAt
  createdAt : ∀ r ∈ rows, r.createdAt ≤ now

theorem filled_nil : Filled offsetMinutes now [] :=
  ⟨List.nodup_nil, fun _ h => absurd h List.not_mem_nil, fun _ h => absurd h List.not_mem_nil⟩

theorem Filled.schedule (h : Filled offsetMinutes now rows) (o : ℤ) :
    Filled offsetMinutes now (schedule offsetMinutes now rows o) := by
  by_cases hthere : Scheduled rows o
  · rw [schedule_of_scheduled hthere]
    exact h
  · rw [schedule_of_not hthere]
    refine ⟨?_, ?_, ?_⟩
    · rw [List.map_append, List.map_singleton]
      refine List.nodup_append.mpr ⟨h.nodup, List.nodup_singleton _, ?_⟩
      intro a ha b hb hab
      obtain ⟨r, hr, rfl⟩ := List.mem_map.mp ha
      exact hthere ⟨r, hr, hab.trans (List.mem_singleton.mp hb)⟩
    · intro r hr
      rcases List.mem_append.mp hr with hr | hr
      · exact h.fireAt r hr
      · obtain rfl := List.mem_singleton.mp hr
        rfl
    · intro r hr
      rcases List.mem_append.mp hr with hr | hr
      · exact h.createdAt r hr
      · obtain rfl := List.mem_singleton.mp hr
        exact le_refl now

theorem mem_schedule {r : ScheduledNotification} : r ∈ schedule offsetMinutes now rows o ↔
    r ∈ rows ∨ ¬Scheduled rows o ∧ r = ⟨o, fireAt offsetMinutes o, now⟩ := by
  by_cases hthere : Scheduled rows o
  · simp [schedule_of_scheduled hthere, hthere]
  · simp [schedule_of_not hthere, hthere]

/-- STEP, then RUN, over the occurrences of a refill. -/
theorem Filled.foldl (h : Filled offsetMinutes now rows) (occurrences : List ℤ) :
    Filled offsetMinutes now (occurrences.foldl (Agenda.schedule offsetMinutes now) rows) := by
  induction occurrences generalizing rows with
  | nil => exact h
  | cons o occurrences ih => exact ih (h.schedule o)

theorem mem_foldl_of_mem {r : ScheduledNotification} (occurrences : List ℤ) (h : r ∈ rows) :
    r ∈ occurrences.foldl (schedule offsetMinutes now) rows := by
  induction occurrences generalizing rows with
  | nil => exact h
  | cons o occurrences ih => exact ih (mem_schedule.mpr (.inl h))

/-- After a refill that lists it, an occurrence has its row. -/
theorem scheduled_foldl {occurrences : List ℤ} (h : o ∈ occurrences) :
    Scheduled (occurrences.foldl (schedule offsetMinutes now) rows) o := by
  induction occurrences generalizing rows with
  | nil => exact absurd h List.not_mem_nil
  | cons x occurrences ih =>
    rcases List.mem_cons.mp h with rfl | h
    · have hthere : Scheduled (schedule offsetMinutes now rows o) o := by
        by_cases hthere : Scheduled rows o
        · rw [schedule_of_scheduled hthere]
          exact hthere
        · rw [schedule_of_not hthere]
          exact ⟨_, List.mem_append_right _ List.mem_cons_self, rfl⟩
      obtain ⟨r, hr, hro⟩ := hthere
      exact ⟨r, mem_foldl_of_mem occurrences hr, hro⟩
    · exact ih h

/-- The rows a refill adds are of what it lists. -/
theorem mem_foldl {r : ScheduledNotification} {occurrences : List ℤ}
    (h : r ∈ occurrences.foldl (schedule offsetMinutes now) rows) :
    r ∈ rows ∨ r.occurrenceAt ∈ occurrences ∧ r.createdAt = now := by
  induction occurrences generalizing rows with
  | nil => exact .inl h
  | cons o occurrences ih =>
    rcases ih h with hr | ⟨hr, hnow⟩
    · rcases mem_schedule.mp hr with hr | ⟨-, rfl⟩
      · exact .inl hr
      · exact .inr ⟨List.mem_cons_self, rfl⟩
    · exact .inr ⟨List.mem_cons_of_mem _ hr, hnow⟩

/-! ### The occurrences -/

/-- `o` is an occurrence of the event, made of `x` when it is a series. -/
inductive Occurs (paris : Paris) (crate : Rrule) (event : EventTimes) : ℤ → Prop where
  | once (h : event.rrule = none) : Occurs paris crate event event.startsAt
  | series (rrule : Text) (count : Option ℕ) (walk : Walk) (j : ℕ) (x : ℤ) (h : event.rrule = some rrule)
      (hwalk : seriesWalk paris crate rrule event.allDay event.startsAt = .ok (count, walk))
      (hx : walk.Counts paris count j x)
      (hfree : excluded paris event.allDay event.exdates
        ((seriesKind paris event.allDay event.startsAt).place paris x) = false) :
      Occurs paris crate event ((seriesKind paris event.allDay event.startsAt).place paris x)

/-- The last moment that can be without a refill: an hour before `o` starts, or before it must be there, whichever comes
    first, and the creation at the earliest. -/
def lastChance (offsetMinutes created grace o : ℤ) : ℤ :=
  max created (min (fireAt offsetMinutes o + grace - refillPollInterval) (o - refillPollInterval))

/-- The unroll of a window reaches `o`. -/
def Reached (paris : Paris) (crate : Rrule) (event : EventTimes) (from_ to_ o : ℤ) : Prop :=
  ∃ rrule count walk x, event.rrule = some rrule ∧
    seriesWalk paris crate rrule event.allDay event.startsAt = .ok (count, walk) ∧
    (seriesKind paris event.allDay event.startsAt).Within paris count walk from_ to_ x ∧
    (seriesKind paris event.allDay event.startsAt).place paris x = o

/-- The event is a one-off; or, at its last chance, the window reaches every occurrence not yet due at the creation. -/
def InReach (paris : Paris) (crate : Rrule) (event : EventTimes) (offsetMinutes created grace : ℤ) : Prop :=
  event.rrule = none ∨ ∀ o, Occurs paris crate event o → created < fireAt offsetMinutes o →
    Reached paris crate event (lastChance offsetMinutes created grace o)
      (lastChance offsetMinutes created grace o + notificationWindow) o

/-- Reached from a window, reached from a later one that has not passed it. -/
theorem Reached.later {from_ to_ from' to' : ℤ} (h : Reached paris crate event from_ to_ o) (hfrom : from_ ≤ from')
    (hto : to_ ≤ to') (ho : from' ≤ o) : Reached paris crate event from' to' o := by
  obtain ⟨rrule, count, walk, x, hrrule, hwalk, hwithin, rfl⟩ := h
  exact ⟨rrule, count, walk, x, hrrule, hwalk, hwithin.later hfrom hto ho, rfl⟩

theorem Occurs.not_excluded (h : Occurs paris crate event o) (hseries : event.rrule ≠ none) :
    excluded paris event.allDay event.exdates o = false := by
  cases h with
  | once hnone => exact absurd hnone hseries
  | series rrule count walk j x hrrule hwalk hx hfree => exact hfree

/-- What a refill makes of a series that unrolls. -/
theorem refillNotifications_eq {rrule : Text} {count : Option ℕ} {walk : Walk} (hrrule : event.rrule = some rrule)
    (hwalk : seriesWalk paris crate rrule event.allDay event.startsAt = .ok (count, walk)) (offsetMinutes now : ℤ)
    (rows : List ScheduledNotification) : ∃ occurrences : List ℤ,
      refillNotifications paris crate event offsetMinutes now rows =
        .ok (occurrences.foldl (schedule offsetMinutes now) rows) ∧
      ∀ o, o ∈ occurrences ↔ Reached paris crate event now (now + notificationWindow) o ∧
        excluded paris event.allDay event.exdates o = false := by
  obtain ⟨occurrences, hocc, hmem⟩ := @mem_reminderOccurrences paris walk count crate rrule event.allDay event.startsAt
    event.endsAt now (now + notificationWindow) event.exdates hwalk
  refine ⟨occurrences, ?_, fun o => (hmem o).trans ?_⟩
  · rw [refillNotifications, hrrule, hocc]
    rfl
  · constructor
    · rintro ⟨x, hwithin, rfl, hfree⟩
      exact ⟨⟨rrule, count, walk, x, hrrule, hwalk, hwithin, rfl⟩, hfree⟩
    · rintro ⟨⟨rrule', count', walk', x, hrrule', hwalk', hwithin, rfl⟩, hfree⟩
      obtain rfl := Option.some.inj (hrrule.symm.trans hrrule')
      obtain ⟨rfl, rfl⟩ := Prod.mk.inj (Except.ok.inj (hwalk.symm.trans hwalk'))
      exact ⟨x, hwithin, rfl, hfree⟩

theorem Filled.refillRecurringReminder (h : Filled offsetMinutes now rows) :
    Filled offsetMinutes now (refillRecurringReminder paris crate event offsetMinutes now rows) := by
  rw [Agenda.refillRecurringReminder]
  split
  · exact h
  · cases hrefill : refillNotifications paris crate event offsetMinutes now rows with
    | error e => exact h
    | ok rows' =>
      rw [refillNotifications] at hrefill
      obtain ⟨occurrences, -, hrows⟩ := bind_eq_ok.mp hrefill
      cases hrows
      exact h.foldl occurrences

theorem mem_refillRecurringReminder {r : ScheduledNotification} (h : r ∈ rows) :
    r ∈ refillRecurringReminder paris crate event offsetMinutes now rows := by
  rw [refillRecurringReminder]
  split
  · exact h
  · cases hrefill : refillNotifications paris crate event offsetMinutes now rows with
    | error e => exact h
    | ok rows' =>
      rw [refillNotifications] at hrefill
      obtain ⟨occurrences, -, hrows⟩ := bind_eq_ok.mp hrefill
      cases hrows
      exact mem_foldl_of_mem occurrences h

/-! ### In time -/

/-- Once `grace` is past its time, an occurrence has had its row since before that. -/
def OnTime (offsetMinutes grace : ℤ) (s : Reminded) (o : ℤ) : Prop :=
  fireAt offsetMinutes o + grace ≤ s.clock →
    ∃ r ∈ s.rows, r.occurrenceAt = o ∧ r.createdAt < fireAt offsetMinutes o + grace

/-- What holds of an occurrence all along: it has its row in time, or, of a series, its last chance is still to come. -/
def Awaited (event : EventTimes) (offsetMinutes created grace : ℤ) (s : Reminded) (o : ℤ) : Prop :=
  (∃ r ∈ s.rows, r.occurrenceAt = o ∧ r.createdAt < fireAt offsetMinutes o + grace) ∨
    event.rrule ≠ none ∧ s.last < lastChance offsetMinutes created grace o

/-- What holds of the reminder all along. -/
structure Kept (offsetMinutes created : ℤ) (s : Reminded) : Prop where
  filled : Filled offsetMinutes s.clock s.rows
  created : created ≤ s.last
  last : s.last ≤ s.clock
  gap : s.clock ≤ s.last + refillPollInterval

variable {created grace : ℤ}

/-- A refill past the last chance still lists the occurrence, as long as it has not started. -/
theorem scheduled_refill (offsetMinutes now : ℤ) (rows : List ScheduledNotification) {chance : ℤ}
    (hreached : Reached paris crate event chance (chance + notificationWindow) o)
    (hfree : excluded paris event.allDay event.exdates o = false) (hchance : chance ≤ now) (hstarts : now ≤ o) :
    Scheduled (refillRecurringReminder paris crate event offsetMinutes now rows) o := by
  have hnow : Reached paris crate event now (now + notificationWindow) o :=
    hreached.later hchance (by omega) hstarts
  obtain ⟨rrule, count, walk, x, hrrule, hwalk, -⟩ := hreached
  obtain ⟨occurrences, hrefill, hmem⟩ := refillNotifications_eq hrrule hwalk offsetMinutes now rows
  rw [refillRecurringReminder, hrrule, hrefill]
  exact scheduled_foldl ((hmem o).mpr ⟨hnow, hfree⟩)

theorem createReminder_eq_ok : createReminder paris crate event offsetMinutes created = .ok rows ↔
    0 ≤ offsetMinutes ∧ refillNotifications paris crate event offsetMinutes created [] = .ok rows := by
  rw [createReminder]
  split
  · rename_i hneg
    exact iff_of_false (by simp) fun h => absurd h.1 (not_le.mpr hneg)
  · rename_i hpos
    cases refillNotifications paris crate event offsetMinutes created [] with
    | error e => simp
    | ok rows' => simp [not_lt.mp hpos]

/-- A row there in time. -/
theorem Kept.inTime (h : Kept offsetMinutes created s) (hthere : Scheduled s.rows o)
    (hclock : s.clock < fireAt offsetMinutes o + grace) :
    ∃ r ∈ s.rows, r.occurrenceAt = o ∧ r.createdAt < fireAt offsetMinutes o + grace := by
  obtain ⟨r, hr, hro⟩ := hthere
  exact ⟨r, hr, hro, (h.filled.createdAt r hr).trans_lt hclock⟩

theorem fireAt_le (hoffset : 0 ≤ offsetMinutes) (o : ℤ) : fireAt offsetMinutes o ≤ o := by
  have hpos : 0 ≤ offsetMinutes * minute := mul_nonneg hoffset (by decide)
  rw [fireAt]
  omega

/-- The creation schedules what its own window holds, and leaves the rest to come. -/
theorem awaited_created (hcreated : createReminder paris crate event offsetMinutes created = .ok rows)
    (hkept : Kept offsetMinutes created ⟨created, created, rows⟩) (hgrace : 0 ≤ grace)
    (hreach : InReach paris crate event offsetMinutes created grace) (ho : Occurs paris crate event o)
    (hdue : created < fireAt offsetMinutes o) : Awaited event offsetMinutes created grace ⟨created, created, rows⟩ o := by
  obtain ⟨hoffset, hrefill⟩ := createReminder_eq_ok.mp hcreated
  cases ho with
  | once hnone =>
    have hrows : rows = [event.startsAt].foldl (schedule offsetMinutes created) [] := by
      rw [refillNotifications, hnone] at hrefill
      exact (Except.ok.inj hrefill).symm
    refine .inl (hkept.inTime ?_ (hdue.trans_le (by omega)))
    dsimp only
    rw [hrows]
    exact scheduled_foldl List.mem_cons_self
  | series rrule count walk j x hrrule hwalk hx hfree =>
    have hseries : event.rrule ≠ none := by simp [hrrule]
    rcases le_or_gt (lastChance offsetMinutes created grace _) created with hle | hgt
    · refine .inl (hkept.inTime ?_ (hdue.trans_le (by omega)))
      have hreached := hreach.resolve_left hseries _ (.series rrule count walk j x hrrule hwalk hx hfree) hdue
      have hthere := scheduled_refill offsetMinutes created [] hreached hfree hle (hdue.le.trans (fireAt_le hoffset _))
      rw [refillRecurringReminder, hrrule, hrefill] at hthere
      exact hthere
    · exact .inr ⟨hseries, hgt⟩

/-- STEP: what is awaited comes in time. -/
theorem Awaited.step (hreach : InReach paris crate event offsetMinutes created grace)
    (ho : Occurs paris crate event o) (hdue : created < fireAt offsetMinutes o)
    (hkept : Kept offsetMinutes created s) (h : Awaited event offsetMinutes created grace s o)
    (hstep : Reminded.Step paris crate event offsetMinutes s s') : Awaited event offsetMinutes created grace s' o := by
  cases hstep with
  | wait clock hclock hgap => exact h
  | refill =>
    rcases h with ⟨r, hr, hro, hin⟩ | ⟨hseries, hlast⟩
    · exact .inl ⟨r, mem_refillRecurringReminder hr, hro, hin⟩
    · have hchance : lastChance offsetMinutes created grace o =
          min (fireAt offsetMinutes o + grace - refillPollInterval) (o - refillPollInterval) := by
        refine max_eq_right ?_
        by_contra hlt
        rw [lastChance, max_eq_left (not_le.mp hlt).le] at hlast
        exact absurd hkept.created (not_le.mpr hlast)
      have hbefore : s.clock < fireAt offsetMinutes o + grace ∧ s.clock < o := by
        have hgap := hkept.gap
        rw [hchance, lt_min_iff] at hlast
        omega
      rcases lt_or_ge s.clock (lastChance offsetMinutes created grace o) with hlt | hge
      · exact .inr ⟨hseries, hlt⟩
      · obtain ⟨r, hr, hro⟩ := scheduled_refill offsetMinutes s.clock s.rows (hreach.resolve_left hseries o ho hdue)
          (ho.not_excluded hseries) hge hbefore.2.le
        exact .inl ⟨r, hr, hro, (hkept.filled.refillRecurringReminder.createdAt r hr).trans_lt hbefore.1⟩

theorem Kept.step (h : Kept offsetMinutes created s) (hstep : Reminded.Step paris crate event offsetMinutes s s') :
    Kept offsetMinutes created s' := by
  have hinterval : 0 ≤ refillPollInterval := by decide
  cases hstep with
  | wait clock hclock hgap =>
    exact ⟨⟨h.filled.nodup, h.filled.fireAt, fun r hr => (h.filled.createdAt r hr).trans hclock⟩, h.created,
      h.last.trans hclock, hgap⟩
  | refill => exact ⟨h.filled.refillRecurringReminder, h.created.trans h.last, le_refl _, by dsimp only; omega⟩

theorem kept_created (hcreated : createReminder paris crate event offsetMinutes created = .ok rows) :
    Kept offsetMinutes created ⟨created, created, rows⟩ := by
  obtain ⟨-, hrefill⟩ := createReminder_eq_ok.mp hcreated
  rw [refillNotifications] at hrefill
  obtain ⟨occurrences, -, hrows⟩ := bind_eq_ok.mp hrefill
  cases hrows
  have hinterval : 0 ≤ refillPollInterval := by decide
  exact ⟨filled_nil.foldl occurrences, le_refl _, le_refl _, by dsimp only; omega⟩

/-- Awaited until its last chance, an occurrence is on time. -/
theorem Awaited.onTime (hkept : Kept offsetMinutes created s) (h : Awaited event offsetMinutes created grace s o) :
    OnTime offsetMinutes grace s o := by
  intro hclock
  rcases h with hthere | ⟨-, hlast⟩
  · exact hthere
  · have hgap := hkept.gap
    have hfirst := hkept.created
    rw [lastChance, lt_max_iff, lt_min_iff] at hlast
    omega

/-! ### Late -/

/-- The rows a series' refills add: each reached by the window of the moment it was written. -/
def Written (paris : Paris) (crate : Rrule) (event : EventTimes) (s : Reminded) : Prop :=
  ∀ r ∈ s.rows, r.createdAt ≤ s.last ∧
    Reached paris crate event r.createdAt (r.createdAt + notificationWindow) r.occurrenceAt

theorem written_refill {r : ScheduledNotification} {rrule : Text} (hrrule : event.rrule = some rrule)
    (hr : r ∈ refillRecurringReminder paris crate event offsetMinutes now rows) :
    r ∈ rows ∨ r.createdAt = now ∧ Reached paris crate event now (now + notificationWindow) r.occurrenceAt := by
  cases hwalk : seriesWalk paris crate rrule event.allDay event.startsAt with
  | error e =>
    have hrefill : refillNotifications paris crate event offsetMinutes now rows = .error e := by
      rw [refillNotifications, hrrule, reminderOccurrences_error hwalk]
      rfl
    rw [refillRecurringReminder, hrrule, hrefill] at hr
    exact .inl hr
  | ok found =>
    obtain ⟨occurrences, hrefill, hmem⟩ := refillNotifications_eq hrrule hwalk offsetMinutes now rows
    rw [refillRecurringReminder, hrrule, hrefill] at hr
    rcases mem_foldl hr with hr | ⟨hocc, hnow⟩
    · exact .inl hr
    · exact .inr ⟨hnow, ((hmem _).mp hocc).1⟩

theorem written_created {rrule : Text} (hrrule : event.rrule = some rrule)
    (hcreated : createReminder paris crate event offsetMinutes created = .ok rows) :
    Written paris crate event ⟨created, created, rows⟩ := by
  obtain ⟨-, hrefill⟩ := createReminder_eq_ok.mp hcreated
  intro r hr
  have hrefilled : r ∈ refillRecurringReminder paris crate event offsetMinutes created [] := by
    rw [refillRecurringReminder, hrrule, hrefill]
    exact hr
  rcases written_refill hrrule hrefilled with hr | ⟨hnow, hreached⟩
  · exact absurd hr List.not_mem_nil
  · rw [hnow]
    exact ⟨le_refl _, hreached⟩

theorem Written.step {rrule : Text} (hrrule : event.rrule = some rrule) (hkept : Kept offsetMinutes created s)
    (h : Written paris crate event s) (hstep : Reminded.Step paris crate event offsetMinutes s s') :
    Written paris crate event s' := by
  cases hstep with
  | wait clock hclock hgap => exact h
  | refill =>
    intro r hr
    rcases written_refill hrrule hr with hr | ⟨hnow, hreached⟩
    · exact ⟨(h r hr).1.trans hkept.last, (h r hr).2⟩
    · rw [hnow]
      exact ⟨le_refl _, hreached⟩

/-- A refill may run at any moment after the creation, whatever the others. -/
theorem exists_refill_at (n : ℕ) : ∀ t, created ≤ t → t ≤ created + n * refillPollInterval →
    ∃ rows', ReflTransGen (Reminded.Step paris crate event offsetMinutes) ⟨created, created, rows⟩ ⟨t, t, rows'⟩ := by
  induction n with
  | zero =>
    intro t hcreated ht
    obtain rfl : created = t := by
      push_cast at ht
      omega
    exact ⟨rows, .refl⟩
  | succ n ih =>
    intro t hcreated ht
    have hinterval : 0 ≤ refillPollInterval := by decide
    obtain ⟨rows', hrun⟩ := ih (max created (t - refillPollInterval)) (le_max_left _ _) (by
      refine max_le ?_ ?_
      · have := mul_nonneg (Int.natCast_nonneg n) hinterval
        omega
      · push_cast at ht
        linarith)
    refine ⟨_, (hrun.tail (.wait _ t ?_ ?_)).tail (.refill _)⟩
    · exact max_le hcreated (by omega)
    · have := le_max_right created (t - refillPollInterval)
      dsimp only
      omega

/-- An occurrence on time in every run, an hour's grace and an hour's offset given, was in reach. -/
theorem reached_of_on_time {rrule : Text} (hrrule : event.rrule = some rrule) (hoffset : 60 ≤ offsetMinutes)
    (hcreated : createReminder paris crate event offsetMinutes created = .ok rows)
    (hdue : created < fireAt offsetMinutes o)
    (h : ∀ s, ReflTransGen (Reminded.Step paris crate event offsetMinutes) ⟨created, created, rows⟩ s →
      OnTime offsetMinutes hour s o) :
    Reached paris crate event (lastChance offsetMinutes created hour o)
      (lastChance offsetMinutes created hour o + notificationWindow) o := by
  have hchance : lastChance offsetMinutes created hour o = fireAt offsetMinutes o := by
    have hle : fireAt offsetMinutes o ≤ o - refillPollInterval := by
      have hminutes : 60 * minute ≤ offsetMinutes * minute := mul_le_mul_of_nonneg_right hoffset (by decide)
      have hhour : refillPollInterval = 60 * minute := rfl
      rw [fireAt]
      omega
    have hgrace : fireAt offsetMinutes o + hour - refillPollInterval = fireAt offsetMinutes o := by
      have hsame : refillPollInterval = hour := rfl
      omega
    rw [lastChance, hgrace, min_eq_left hle, max_eq_right hdue.le]
  obtain ⟨n, hn⟩ : ∃ n : ℕ, fireAt offsetMinutes o ≤ created + n * refillPollInterval := by
    refine ⟨(fireAt offsetMinutes o - created).toNat, ?_⟩
    have hone : 1 ≤ refillPollInterval := by decide
    nlinarith [Int.toNat_of_nonneg (sub_nonneg.mpr hdue.le)]
  obtain ⟨rows', hrun⟩ := @exists_refill_at paris crate event offsetMinutes rows created n _ hdue.le hn
  have hinvariant : Kept offsetMinutes created ⟨fireAt offsetMinutes o, fireAt offsetMinutes o, rows'⟩ ∧
      Written paris crate event ⟨fireAt offsetMinutes o, fireAt offsetMinutes o, rows'⟩ := by
    generalize (⟨fireAt offsetMinutes o, fireAt offsetMinutes o, rows'⟩ : Reminded) = t at hrun
    induction hrun with
    | refl => exact ⟨kept_created hcreated, written_created hrrule hcreated⟩
    | tail _ hstep ih => exact ⟨ih.1.step hstep, ih.2.step hrrule ih.1 hstep⟩
  have hlater := hrun.tail (.wait _ (fireAt offsetMinutes o + hour) (by dsimp only; have := hour_pos; omega) (le_refl _))
  obtain ⟨r, hr, rfl, -⟩ := h _ hlater (le_refl _)
  obtain ⟨hwritten, hreached⟩ := hinvariant.2 r hr
  have hnonneg : 0 ≤ offsetMinutes := by omega
  rw [hchance]
  exact hreached.later hwritten (by dsimp only at hwritten; omega) (fireAt_le hnonneg _)

/-- CORRECT: of any reminder created, an occurrence has one row at most; where the last chance of each occurrence of
    its series is in reach, each that was not yet due at the creation is on time; and, from an hour's offset on, only
    there is each on time in every run. -/
theorem reminded_on_time (hcreated : createReminder paris crate event offsetMinutes created = .ok rows) :
    (∀ s, ReflTransGen (Reminded.Step paris crate event offsetMinutes) ⟨created, created, rows⟩ s →
      (s.rows.map ScheduledNotification.occurrenceAt).Nodup) ∧
    (∀ grace, 0 ≤ grace → InReach paris crate event offsetMinutes created grace →
      ∀ s, ReflTransGen (Reminded.Step paris crate event offsetMinutes) ⟨created, created, rows⟩ s →
        ∀ o, Occurs paris crate event o → created < fireAt offsetMinutes o → OnTime offsetMinutes grace s o) ∧
    (60 ≤ offsetMinutes →
      (∀ s, ReflTransGen (Reminded.Step paris crate event offsetMinutes) ⟨created, created, rows⟩ s →
        ∀ o, Occurs paris crate event o → created < fireAt offsetMinutes o → OnTime offsetMinutes hour s o) →
      InReach paris crate event offsetMinutes created hour) := by
  refine ⟨?_, ?_, ?_⟩
  · intro s hrun
    have hkept : Kept offsetMinutes created s := by
      induction hrun with
      | refl => exact kept_created hcreated
      | tail _ hstep ih => exact ih.step hstep
    exact hkept.filled.nodup
  · intro grace hgrace hreach s hrun o ho hdue
    have hboth : Kept offsetMinutes created s ∧ Awaited event offsetMinutes created grace s o := by
      induction hrun with
      | refl =>
        have hkept := kept_created hcreated
        exact ⟨hkept, awaited_created hcreated hkept hgrace hreach ho hdue⟩
      | tail _ hstep ih => exact ⟨ih.1.step hstep, ih.2.step hreach ho hdue ih.1 hstep⟩
    exact hboth.2.onTime hboth.1
  · intro hoffset hall
    cases hrrule : event.rrule with
    | none => exact .inl hrrule
    | some rrule =>
      refine .inr fun o ho hdue => ?_
      exact reached_of_on_time hrrule hoffset hcreated hdue fun s hrun => hall s hrun o ho hdue

/-! ### A series of one occurrence, 40 days ahead -/

/-- The walk that comes once. -/
def Walk.once (w : ℤ) : Walk where
  wall i := if i = 0 then some w else none
  ended i _ := if_neg i.succ_ne_zero
  increasing i w' w'' _ h := absurd h (by simp)

/-- The first day at 00:01Z is 40 days after the epoch, and the last. -/
def dinnerAt : ℤ := 40 * day + minute

def dinner : EventTimes := ⟨dinnerAt, dinnerAt + hour, false, some "FREQ=DAILY;UNTIL=19700210T000100Z".toList, []⟩

/-- The crate, on that rule. -/
def dinnerCrate : Rrule where
  Rule := Unit
  Error := Unit
  invalidParameterFormat _ := ()
  parse _ := .ok ()
  getFreq _ := .Daily
  getByHour _ := []
  getByMinute _ := []
  getBySecond _ := []
  getCount _ := none
  count _ rule := rule
  getUntil _ := some ⟨dinnerAt, true⟩
  until_ _ rule := rule
  build _ anchor := .ok (Walk.once (europeParis.local_ anchor))

def dinnerWalk : Walk := Walk.once (europeParis.local_ dinnerAt)

theorem seriesWalk_dinner : seriesWalk europeParis dinnerCrate "FREQ=DAILY;UNTIL=19700210T000100Z".toList false dinnerAt =
    .ok (none, dinnerWalk) := by
  have hfirst : europeParis.firstPassOfARepeatedHour dinnerAt = dinnerAt := by decide
  have hparse : parseRule dinnerCrate "FREQ=DAILY;UNTIL=19700210T000100Z".toList = .ok () := rfl
  rw [seriesWalk, hparse]
  simp only [bind, Except.bind, pure, Except.pure, buildParisRuleSet, Bool.false_eq_true, if_false, hfirst]
  rfl

theorem seriesKind_dinner : seriesKind europeParis false dinnerAt = .hourBound := by decide

theorem instant_dinner : dinnerWalk.instant europeParis 0 = some dinnerAt := by decide

theorem occurs_dinner {o : ℤ} : Occurs europeParis dinnerCrate dinner o ↔ o = dinnerAt := by
  constructor
  · intro h
    cases h with
    | once hnone => rfl
    | series rrule count walk j x hrrule hwalk hx hfree =>
      obtain rfl := Option.some.inj hrrule
      obtain ⟨rfl, rfl⟩ := Prod.mk.inj (Except.ok.inj (seriesWalk_dinner.symm.trans hwalk))
      have hkind : seriesKind europeParis dinner.allDay dinner.startsAt = .hourBound := seriesKind_dinner
      rw [hkind, place_hourBound, id]
      cases j with
      | zero => exact Option.some.inj (hx.1.symm.trans instant_dinner)
      | succ j => exact absurd hx.1 (by simp [Walk.instant, dinnerWalk, Walk.once])
  · rintro rfl
    have hcounts : dinnerWalk.Counts europeParis none 0 dinnerAt := ⟨instant_dinner, List.not_mem_nil, rfl⟩
    exact .series _ none dinnerWalk 0 dinnerAt rfl seriesWalk_dinner hcounts rfl

theorem reached_dinner {from_ to_ : ℤ} : Reached europeParis dinnerCrate dinner from_ to_ dinnerAt ↔
    from_ - second ≤ dinnerAt ∧ dinnerAt ≤ to_ + second := by
  constructor
  · rintro ⟨rrule, count, walk, x, hrrule, hwalk, hwithin, hplace⟩
    have hkind : seriesKind europeParis dinner.allDay dinner.startsAt = .hourBound := seriesKind_dinner
    rw [hkind] at hwithin hplace
    obtain rfl : x = dinnerAt := hplace
    exact hwithin.reaches.mem
  · rintro ⟨hfrom, hto⟩
    refine ⟨_, none, dinnerWalk, dinnerAt, rfl, seriesWalk_dinner, ?_, rfl⟩
    have hkind : seriesKind europeParis dinner.allDay dinner.startsAt = .hourBound := seriesKind_dinner
    rw [hkind]
    have hfirst : ((dinnerWalk.distinct europeParis 0).filter
        (inWindow (from_ - SeriesKind.hourBound.margin) (to_ + SeriesKind.hourBound.margin))).length < MAX_OCCURRENCES :=
      Nat.zero_lt_succ _
    refine ⟨⟨0, ⟨instant_dinner, List.not_mem_nil, rfl, hfirst, hfrom, hto⟩, ?_⟩, rfl⟩
    intro i hi
    exact absurd hi i.not_lt_zero

theorem createReminder_dinner (offsetMinutes : ℤ) (h : 0 ≤ offsetMinutes) :
    ∃ rows, createReminder europeParis dinnerCrate dinner offsetMinutes 0 = .ok rows := by
  obtain ⟨occurrences, hrefill, -⟩ := @refillNotifications_eq _ _ dinner _ _ _ rfl seriesWalk_dinner offsetMinutes 0 []
  exact ⟨_, createReminder_eq_ok.mpr ⟨h, hrefill⟩⟩

/-- Ten minutes ahead: on time, and at its very moment. -/
theorem reminded_on_time_dinner : ∃ rows, createReminder europeParis dinnerCrate dinner 10 0 = .ok rows ∧
    ∀ s, ReflTransGen (Reminded.Step europeParis dinnerCrate dinner 10) ⟨0, 0, rows⟩ s → OnTime 10 0 s dinnerAt := by
  obtain ⟨rows, hcreated⟩ := createReminder_dinner 10 (by decide)
  refine ⟨rows, hcreated, fun s hrun => ?_⟩
  have hreach : InReach europeParis dinnerCrate dinner 10 0 0 := by
    refine .inr fun o ho _ => ?_
    obtain rfl := occurs_dinner.mp ho
    exact reached_dinner.mpr (by decide)
  exact (reminded_on_time hcreated).2.1 0 (le_refl 0) hreach s hrun dinnerAt (occurs_dinner.mpr rfl) (by decide)

/-- 40 days ahead: its time comes a minute after the creation, and its row ten days later. -/
theorem reminded_late : ¬∀ (paris : Paris) (crate : Rrule) (event : EventTimes) (offsetMinutes created : ℤ)
    (rows : List ScheduledNotification), createReminder paris crate event offsetMinutes created = .ok rows →
    ∀ s, ReflTransGen (Reminded.Step paris crate event offsetMinutes) ⟨created, created, rows⟩ s →
      (s.rows.map ScheduledNotification.occurrenceAt).Nodup ∧ ∀ o, Occurs paris crate event o →
        created < fireAt offsetMinutes o → OnTime offsetMinutes hour s o := by
  intro hclaim
  have hdue : 0 < fireAt 57600 dinnerAt := by decide
  obtain ⟨rows, hcreated⟩ := createReminder_dinner 57600 (by decide)
  have hreached := @reached_of_on_time _ _ dinner _ _ _ _ _ rfl (by decide) hcreated hdue fun s hrun =>
    (hclaim _ _ _ _ _ rows hcreated s hrun).2 dinnerAt (occurs_dinner.mpr rfl) hdue
  exact absurd (reached_dinner.mp hreached) (by decide)

end Home.Agenda
