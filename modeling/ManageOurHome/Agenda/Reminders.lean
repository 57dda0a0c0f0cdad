import ManageOurHome.Agenda.Occurrences
import ManageOurHome.Error

/-! @src apps/api/src/agenda/reminders.rs, apps/api/src/jobs/scheduled_notifications.rs | layer:model | family:reminders

    One reminder of one event, and its rows of `scheduled_notifications`. Its creation schedules what starts within the
    next 30 days, and so does each pass of the refill, for a series. A row is written once for an occurrence.

        created ──▶ pass ──▶ pass ──▶ …          an hour apart at most
           │          └─ the series' occurrences from now to now + 30 days
           └─ the same, or the one start of a one-off -/

namespace Home.Agenda

/-- The columns of an event its reminders are scheduled from. -/
structure EventTimes where
  startsAt : ℤ
  endsAt : ℤ
  allDay : Bool
  rrule : Option Text
  exdates : List ℤ

/-- A row of `scheduled_notifications`, of one reminder. -/
structure ScheduledNotification where
  occurrenceAt : ℤ
  fireAt : ℤ
  createdAt : ℤ
  deriving DecidableEq, Repr

/-- `NOTIFICATION_WINDOW_DAYS`. -/
def notificationWindow : ℤ := 30 * day

/-- When an occurrence is reminded. -/
def fireAt (offsetMinutes o : ℤ) : ℤ := o - offsetMinutes * minute

/-- `INSERT … ON CONFLICT (event_reminder_id, occurrence_at) DO NOTHING`. -/
def schedule (offsetMinutes now : ℤ) (rows : List ScheduledNotification) (o : ℤ) : List ScheduledNotification :=
  if rows.any fun r => r.occurrenceAt = o then rows else rows ++ [⟨o, fireAt offsetMinutes o, now⟩]

variable (paris : Paris) (crate : Rrule)

def refillNotifications (event : EventTimes) (offsetMinutes now : ℤ) (rows : List ScheduledNotification) :
    Except crate.Error (List ScheduledNotification) := do
  let windowEnd := now + notificationWindow
  let occurrences ←
    reminderOccurrences paris crate event.rrule event.allDay event.startsAt event.endsAt now windowEnd event.exdates
  return occurrences.foldl (schedule offsetMinutes now) rows

/-- `create_reminder`, on an event that is there: the rows of the reminder created, or a refusal, or the error of a
    series that does not unroll. -/
def createReminder (event : EventTimes) (offsetMinutes now : ℤ) :
    Except (AppError ⊕ crate.Error) (List ScheduledNotification) :=
  if offsetMinutes < 0 then .error (.inl (.BadRequest "offset_minutes_must_be_non_negative"))
  else match refillNotifications paris crate event offsetMinutes now [] with
    | .ok rows => .ok rows
    | .error e => .error (.inr e)

/-- `refill_recurring_reminders`, for this reminder: a series only, and nothing of it when it fails. -/
def refillRecurringReminder (event : EventTimes) (offsetMinutes now : ℤ) (rows : List ScheduledNotification) :
    List ScheduledNotification :=
  match event.rrule with
  | none => rows
  | some _ => match refillNotifications paris crate event offsetMinutes now rows with
    | .ok rows' => rows'
    | .error _ => rows

/-- `REFILL_POLL_INTERVAL_SECS`. -/
def refillPollInterval : ℤ := hour

/-- The reminder at a moment; `last` is when it was last filled. -/
structure Reminded where
  clock : ℤ
  last : ℤ
  rows : List ScheduledNotification

/-- Time passes, an hour after the last refill at most; or a pass of the refill runs. -/
inductive Reminded.Step (event : EventTimes) (offsetMinutes : ℤ) : Reminded → Reminded → Prop where
  | wait (s : Reminded) (clock : ℤ) (h : s.clock ≤ clock) (hgap : clock ≤ s.last + refillPollInterval) :
      Step event offsetMinutes s { s with clock := clock }
  | refill (s : Reminded) : Step event offsetMinutes s
      ⟨s.clock, s.clock, refillRecurringReminder paris crate event offsetMinutes s.clock s.rows⟩

end Home.Agenda
