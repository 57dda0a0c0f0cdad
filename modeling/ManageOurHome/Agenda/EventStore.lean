import ManageOurHome.Agenda.Split
import ManageOurHome.Error
import ManageOurHome.Groups.Members
import ManageOurHome.Lib.FMap

/-! @src apps/api/migrations/0042_rls_app_group_id.sql, 0044_private_events.sql, apps/api/src/agenda/events.rs |
    layer:model | family:private events

    The events of the families and what hangs off them, as the statements of one transaction read and write them. Each
    statement is checked against the policies as the rows stand when it starts: it reads the rows its session sees, and
    fails if a row it writes is one its session does not. `Uuid` is the type of every id.

        events      group ∧ (shared ∨ created by the session's user ∨ assigned to them)
        the others  their event is seen -/

namespace Home.Agenda.Events

open FiniteMap

/-- A row of `events`; its id is its key. -/
structure EventRow (Uuid : Type) where
  groupId : Uuid
  createdBy : Uuid
  title : Text
  description : Option Text
  location : Option Text
  startsAt : ℤ
  endsAt : ℤ
  allDay : Bool
  isTask : Bool
  completedAt : Option ℤ
  rrule : Option Text
  isPrivate : Bool
  exdates : List ℤ
  deriving DecidableEq

inductive NotificationStatus where
  | pending | sent | failed
  deriving DecidableEq, Repr

/-- A row of `event_reminders`, `scheduled_notifications`, `event_occurrence_completions` or `event_attachments`. -/
inductive Child (Uuid : Type) where
  | reminder (id event : Uuid) (offsetMinutes : ℤ)
  | notification (reminder event : Uuid) (occurrenceAt fireAt : ℤ) (status : NotificationStatus)
  | completion (event : Uuid) (occurrenceAt completedAt : ℤ) (completedBy : Uuid)
  | attachment (id event : Uuid)
  deriving DecidableEq

def Child.event {Uuid : Type} : Child Uuid → Uuid
  | .reminder _ e _ | .notification _ e _ _ _ | .completion e _ _ _ | .attachment _ e => e

/-- The tables; `imported` is the events of `calendar_import_events`, `members` the roles of `group_members`. -/
structure Db (Uuid : Type) where
  members : FMap (Uuid × Uuid) Groups.Role
  imported : Finset Uuid
  events : FMap Uuid (EventRow Uuid)
  assignees : Finset (Uuid × Uuid)
  children : List (Child Uuid)

/-- `app.group_id` and `app.user_id`. -/
structure Session (Uuid : Type) where
  groupId : Uuid
  userId : Uuid

/-- Why a request ends without a commit: an answer of its own, reminders that could not be scheduled, a policy, or a
    `fetch_one` with no row. -/
inductive Failure where
  | app (e : AppError)
  | scheduling
  | policy
  | rowNotFound
  deriving DecidableEq, Repr

variable {Uuid : Type} [DecidableEq Uuid]

section

variable (s : Session Uuid) (db : Db Uuid)

/-! ### The policies -/

/-- `event_is_assigned_to_current_user`. -/
def eventIsAssignedToCurrentUser (id : Uuid) : Bool := (id, s.userId) ∈ db.assignees

/-- `events_isolation`. -/
def eventsIsolation (id : Uuid) (row : EventRow Uuid) : Bool :=
  row.groupId = s.groupId ∧
    (row.isPrivate = false ∨ row.createdBy = s.userId ∨ eventIsAssignedToCurrentUser s db id)

/-- `SELECT … FROM events WHERE id = …`. -/
def selectEvent (id : Uuid) : Option (EventRow Uuid) := (db.events.get id).filter (eventsIsolation s db id)

/-- `EXISTS (SELECT 1 FROM events e …)`: the policy of every other table. -/
def seesEvent (id : Uuid) : Bool := (selectEvent s db id).isSome

def selectChildren : List (Child Uuid) := db.children.filter fun c => seesEvent s db c.event

/-- `assignees_for_events`, of one event. -/
def assigneesForEvent (id : Uuid) : Finset Uuid :=
  (db.assignees.filter fun p => p.1 = id ∧ seesEvent s db p.1).image Prod.snd

/-! ### `events` -/

def insertEvent (id : Uuid) (row : EventRow Uuid) : Except Failure (Db Uuid) :=
  if eventsIsolation s db id row then .ok { db with events := db.events.set id (some row) } else .error .policy

/-- `UPDATE events SET … WHERE id = … RETURNING …`; no row is no error. -/
def updateEventRow (id : Uuid) (f : EventRow Uuid → EventRow Uuid) :
    Except Failure (Db Uuid × Option (EventRow Uuid)) :=
  match selectEvent s db id with
  | none => .ok (db, none)
  | some row =>
    if eventsIsolation s db id (f row) then
      .ok ({ db with events := db.events.set id (some (f row)) }, some (f row))
    else .error .policy

/-! ### `event_assignees` -/

/-- The rows of the new set, the ones already there included. -/
def upsertAssignees (id : Uuid) (users : Finset Uuid) : Except Failure (Db Uuid) :=
  if users = ∅ ∨ seesEvent s db id then .ok { db with assignees := db.assignees ∪ users.image (Prod.mk id) }
  else .error .policy

/-- The rows outside the new set. -/
def dropOtherAssignees (id : Uuid) (users : Finset Uuid) : Db Uuid :=
  { db with assignees := db.assignees.filter fun p => ¬(p.1 = id ∧ p.2 ∉ users ∧ seesEvent s db p.1) }

/-! ### What hangs off an event -/

/-- `INSERT … ON CONFLICT`: `f` says what becomes of the rows there are. -/
def insertChild (f : List (Child Uuid) → List (Child Uuid)) (row : Child Uuid) : Except Failure (Db Uuid) :=
  if seesEvent s db row.event then .ok { db with children := f db.children } else .error .policy

def deleteChildren (p : Child Uuid → Bool) : Db Uuid :=
  { db with children := db.children.filter fun c => !(p c && seesEvent s db c.event) }

end

/-- `fetch_one`. -/
def fetchOne {α : Type} (row : Option α) : Except Failure α :=
  match row with
  | some r => .ok r
  | none => .error .rowNotFound

/-- `?`, on what a handler answers by itself. -/
def refuse {α : Type} (x : Except AppError α) : Except Failure α :=
  match x with
  | .ok a => .ok a
  | .error e => .error (.app e)

end Home.Agenda.Events
