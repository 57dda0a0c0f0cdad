import ManageOurHome.Agenda.Permitted
import ManageOurHome.Agenda.WholeDays

/-! @src apps/api/src/google_calendar/imports.rs, apps/shared/src/validation/agenda.rs | layer:proof | family:imports

    The bounds of an all-day event of a feed. A feed writes civil dates, which arrive as the UTC midnights of those days;
    they are put on the Paris ones, and normalized. A row already in the agenda is repaired when normalizing would change
    it: once repaired it is left alone, and so is a row written by the API.

        feed  d1 ─▶ d2        UTC midnights ──importBounds──▶ Paris midnights of d1 and max (d1 + 1) d2
        row   normalized? ──yes──▶ left alone
                          └─no───▶ importBounds -/

namespace Home.GoogleCalendar

open Agenda

/-- What a row already in `events` is missing. -/
structure RowRepair where
  bounds : Option (ℤ × ℤ)
  missingAssignee : Bool
  deriving DecidableEq, Repr

def RowRepair.isNeeded (repair : RowRepair) : Bool := repair.bounds.isSome || repair.missingAssignee

variable (paris : Paris)

/-- The instants carry civil dates, in UTC. -/
def importBounds (allDay : Bool) (startsAt endsAt : ℤ) : ℤ × ℤ :=
  if allDay then paris.normalizeAllDay (paris.startOfDay (startsAt / day)) (paris.startOfDay (endsAt / day))
  else (startsAt, endsAt)

variable {paris} {s e d₁ d₂ : ℤ} {allDay : Bool}

/-! ### Rows that are left alone -/

section

open Agenda.Events FiniteMap

variable {Uuid : Type}

variable [DecidableEq Uuid] {crate : Rrule} {format : Format} {session : Session Uuid} {draws : Draws Uuid}
  {db db' : Db Uuid} {eventId id : Uuid} {row : EventRow Uuid}

/-! A statement leaves the events as they are, or says what it returns of them. -/

end

/-! ### The cover, and the repair -/

end Home.GoogleCalendar
