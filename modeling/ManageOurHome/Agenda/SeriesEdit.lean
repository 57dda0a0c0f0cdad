import ManageOurHome.Agenda.Picker
import ManageOurHome.Agenda.UpdateEvent

/-! @src apps/web/src/routes/agenda/edit.rs, mod.rs, apps/shared/src/validation/agenda.rs | layer:model |
    family:recurrence

    The edit form of a series, opened on one of its occurrences. The form shows the occurrence; what is typed there for
    the whole series is carried to the series' own start, as many days later and at the time typed.

        series      2026-09-07T09:00          shown   2026-09-21T09:00
        moved       2026-09-08T10:00    ◀──   typed   2026-09-22T10:00 -/

namespace Home.Agenda

open Events

/-! ### Fields -/

/-- The time part of a `datetime-local` value: `%H:%M`, or `%H:%M:%S`. -/
structure ClockTime where
  minutes : ℕ
  seconds : Option ℕ
  valid : minutes < 1440 ∧ ∀ s ∈ seconds, s < 60
  deriving DecidableEq

/-- A `Début` or `Fin` value: a date, or a `datetime-local`. -/
structure Field where
  day : ℤ
  time : Option ClockTime
  deriving DecidableEq

def ClockTime.nanos (t : ClockTime) : ℤ := t.minutes * minute + (t.seconds.getD 0 : ℕ) * second

/-- The wall clock a field names, a date the midnight opening it. -/
def Field.wall (f : Field) : ℤ := f.day * Home.day + (f.time.map ClockTime.nanos).getD 0

theorem minutes_lt (w : ℤ) : (w % day / minute).toNat < 1440 ∧ ∀ s ∈ (none : Option ℕ), s < 60 := by
  have hmod := Int.emod_lt_of_pos w day_pos
  have hpos := Int.emod_nonneg w (ne_of_gt day_pos)
  have hday : day = 1440 * minute := rfl
  have hminute : (0 : ℤ) < minute := by decide
  have hlt : w % day / minute < 1440 := Int.ediv_lt_of_lt_mul hminute (hday ▸ hmod)
  refine ⟨by omega, fun s hs => ?_⟩
  cases hs

section

variable (paris : Paris)

/-- `to_datetime_local`. -/
def toDatetimeLocal (dt : ℤ) : Field :=
  let w := paris.naiveLocal dt
  ⟨w / day, some ⟨(w % day / minute).toNat, none, minutes_lt w⟩⟩

/-- A wall clock typed, as an instant: none when it is skipped. -/
def parisLocalToUtc (w : ℤ) : Option ℤ := paris.earliest w <|> paris.latest w

/-- The bounds a submitted `Début`/`Fin` pair stands for; a date end names the last day. -/
def formBounds (starts ends : Field) : Option (ℤ × ℤ) := do
  let startsAt ← match starts.time with
    | none => some (paris.startOfDay starts.day)
    | some _ => parisLocalToUtc paris starts.wall
  let endsAt ← match ends.time with
    | none => some (paris.startOfDay (ends.day + 1))
    | some _ => parisLocalToUtc paris ends.wall
  let hasDateField := starts.time.isNone || ends.time.isNone
  if hasDateField ∧ endsAt ≤ startsAt then none else some (startsAt, endsAt)

/-- The two dates an all-day event is edited with: its first day and its last one. -/
def allDayFieldValues (startsAt endsAt : ℤ) : Field × Field :=
  let (startsAt, exclusiveEnd) := paris.normalizeAllDay startsAt endsAt
  (⟨paris.date startsAt, none⟩, ⟨paris.date exclusiveEnd - 1, none⟩)

def fieldValues (allDay : Bool) (startsAt endsAt : ℤ) : Field × Field :=
  if allDay then allDayFieldValues paris startsAt endsAt
  else (toDatetimeLocal paris startsAt, toDatetimeLocal paris endsAt)

end

/-- A field moved on the occurrence, carried to the series: as many days later, at the field's time of day. -/
def rebased (submitted occurrence series : Field) : Field :=
  ⟨series.day + (submitted.day - occurrence.day), submitted.time⟩

section

variable {Uuid : Type} (paris : Paris)

/-- The `Début`/`Fin` values of the occurrence at `occurrenceAt`. -/
def occurrenceFieldValues (series : EventRow Uuid) (occurrenceAt : ℤ) : Field × Field :=
  if series.allDay then
    let (first, last) := fieldValues paris true series.startsAt series.endsAt
    let day : Field := ⟨paris.date occurrenceAt, none⟩
    (day, rebased last first day)
  else
    let duration := series.endsAt - series.startsAt
    fieldValues paris false occurrenceAt (occurrenceAt + duration)

/-! ### The request -/

structure EventForm where
  title : Text
  description : Text
  location : Text
  startsAt : Field
  endsAt : Field
  allDay : Bool
  /-- What the picker's fields say, none for « Aucune ». -/
  recurrence : Except Unit (Option Recurrence)
  assigneesPresent : Bool
  isPrivate : Bool

def rruleFromForm (format : Format) (form : EventForm) : Except Unit (Option Text) :=
  form.recurrence.map fun recurrence => recurrence.map (buildRrule format)

/-- `Option::ok_or`. -/
def okOr {α : Type} (code : String) : Option α → Except String α
  | some a => .ok a
  | none => .error code

/-- `EventFormError`, by the code the page shows. -/
def validateEventForm (title : Text) (startsAt endsAt : ℤ) : Except String Unit :=
  if (trim title).isEmpty then .error "title_required"
  else if endsAt < startsAt then .error "ends_before_starts"
  else .ok ()

/-- The request a submitted form makes of the event as a whole. -/
def updateRequest (format : Format) (form : EventForm) (assigneeIds : List Uuid) :
    Except String (UpdateEventRequest Uuid) := do
  let (startsAt, endsAt) ← okOr "ends_before_starts" (formBounds paris form.startsAt form.endsAt)
  validateEventForm form.title startsAt endsAt
  let rrule ← (rruleFromForm format form).mapError fun _ => "invalid_rrule"
  return {
    title := some (trim form.title)
    description := some (trim form.description)
    location := some (trim form.location)
    startsAt := some startsAt
    endsAt := some endsAt
    allDay := some form.allDay
    -- « Aucune » clears the rule
    rrule := some (rrule.getD [])
    completed := none
    occurrenceAt := none
    assigneeIds := if form.assigneesPresent then some assigneeIds else none
    isPrivate := some form.isPrivate
    scope := none }

/-- The occurrence the form was opened on, and what the change applies to. -/
structure ScopeChoice where
  occurrenceAt : ℤ
  scope : EditScope

variable (readDate : Text → Option ℤ)

/-- Whether the form's rule is the series' own: by its text, or by what the picker reads in it. -/
def sameRule (submitted : Option Text) (series : EventRow Uuid) : Bool :=
  match submitted.filter (!·.isEmpty), series.rrule with
  | none, none => true
  | some a, some b => a = b || (match parseRrule readDate a, parseRrule readDate b with
    | some x, some y => decide (x = y)
    | _, _ => false)
  | _, _ => false

def wholeEventRequest (body : UpdateEventRequest Uuid) (series : EventRow Uuid) : UpdateEventRequest Uuid :=
  if sameRule readDate body.rrule series then { body with rrule := none } else body

/-- The series' own fields, moved as the occurrence's were. -/
def seriesFields (form : EventForm) (series : EventRow Uuid) (occurrenceAt : ℤ) : Field × Field :=
  let shown := occurrenceFieldValues paris series occurrenceAt
  let own := fieldValues paris series.allDay series.startsAt series.endsAt
  (rebased form.startsAt shown.1 own.1, rebased form.endsAt shown.2 own.2)

/-- The times of a request for the chosen scope: none when nothing was typed, the series' own moved by as much for the
    whole series. -/
def scopedTimes (body : UpdateEventRequest Uuid) (choice : ScopeChoice) (form : EventForm) (series : EventRow Uuid) :
    Option (UpdateEventRequest Uuid) :=
  let shown := occurrenceFieldValues paris series choice.occurrenceAt
  let untouched := form.startsAt = shown.1 ∧ form.endsAt = shown.2 ∧ form.allDay = series.allDay
  if untouched then some { body with startsAt := none, endsAt := none }
  else if choice.scope = .All then do
    let moved := seriesFields paris form series choice.occurrenceAt
    let (startsAt, endsAt) ← formBounds paris moved.1 moved.2
    some { body with startsAt := some startsAt, endsAt := some endsAt }
  else some body

/-- The request of an edit opened on an occurrence. -/
def scopedRequest (body : UpdateEventRequest Uuid) (choice : ScopeChoice) (form : EventForm) (series : EventRow Uuid) :
    Option (UpdateEventRequest Uuid) := do
  let body ← scopedTimes paris body choice form series
  let body := match choice.scope with
    | .This => { body with rrule := none }
    | .ThisAndFollowing | .All => wholeEventRequest readDate body series
  return { body with
    scope := some choice.scope
    occurrenceAt := if choice.scope ≠ .All then some choice.occurrenceAt else none }

/-- What is submitted of a form opened on an occurrence. -/
def submitted (format : Format) (form : EventForm) (assigneeIds : List Uuid) (choice : ScopeChoice)
    (series : EventRow Uuid) : Except String (UpdateEventRequest Uuid) := do
  let body ← updateRequest paris format form assigneeIds
  okOr "ends_before_starts" (scopedRequest paris readDate body choice form series)

end

end Home.Agenda
