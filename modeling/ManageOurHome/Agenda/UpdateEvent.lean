import ManageOurHome.Agenda.EventStore
import ManageOurHome.Agenda.Reminders

/-! @src apps/api/src/agenda/mod.rs, events.rs, reminders.rs | layer:model | family:private events

    `PATCH /groups/:id/events/:event_id`, in one transaction. What the request asks is decided on the locked row and its
    assignees; then the row is updated in place, or the series is cut at an occurrence and a new event takes over.

        in place  completion ─▶ new assignees ─▶ UPDATE ─▶ the old assignees deleted
        split     INSERT, shared ─▶ assignees ─▶ UPDATE, private ─▶ the series lets go ─▶ reminders copied -/

namespace Home.Agenda.Events

open FiniteMap Groups

inductive EditScope where
  | All | ThisAndFollowing | This
  deriving DecidableEq, Repr

structure UpdateEventRequest (Uuid : Type) where
  title : Option Text
  description : Option Text
  location : Option Text
  startsAt : Option ℤ
  endsAt : Option ℤ
  allDay : Option Bool
  /-- An empty text clears the recurrence. -/
  rrule : Option Text
  completed : Option Bool
  occurrenceAt : Option ℤ
  assigneeIds : Option (List Uuid)
  isPrivate : Option Bool
  scope : Option EditScope

/-- What the database draws: the time, the id of the event inserted, and the ids of the copies of reminders. -/
structure Draws (Uuid : Type) where
  now : ℤ
  newId : Uuid
  copyId : Uuid → Uuid

/-- What the request ends with: the rows at commit, and the event answered with its assignees. -/
structure Outcome (Uuid : Type) where
  db : Db Uuid
  event : Uuid
  row : EventRow Uuid
  assigneeIds : Finset Uuid

/-! ### `mod.rs` -/

def canModify (actorRole : Role) (actorIsCreator actorIsPrivateParticipant : Bool) : Bool :=
  actorIsCreator || actorRole = .owner || actorRole = .admin || actorIsPrivateParticipant

variable {Uuid : Type} [DecidableEq Uuid]

def isParticipant (user createdBy : Uuid) (assignees : Finset Uuid) : Bool := user = createdBy || user ∈ assignees

def maySetPrivacy (wasPrivate willBePrivate actorParticipantAfter : Bool) : Bool :=
  wasPrivate || !willBePrivate || actorParticipantAfter

/-! ### The checks -/

section

variable (s : Session Uuid) (db : Db Uuid)

def requireRole : Except AppError Role :=
  match db.members.get (s.groupId, s.userId) with
  | some role => .ok role
  | none => .error .Forbidden

def validMemberIds : Finset Uuid := (db.members.keys.filter fun k => k.1 = s.groupId).image Prod.snd

end

def resolveAssignees (requested : List Uuid) (validMembers : Finset Uuid) (creator : Uuid) : Finset Uuid :=
  let resolved := (requested.filter (· ∈ validMembers)).toFinset
  if resolved = ∅ then {creator} else resolved

variable (paris : Paris) (crate : Rrule) (format : Format)

/-- `map_err(|_| AppError::BadRequest("invalid_rrule"))`. -/
def orInvalidRrule {α : Type} (x : Except crate.Error α) : Except AppError α :=
  match x with
  | .ok a => .ok a
  | .error _ => .error (.BadRequest "invalid_rrule")

def validateRequest (title : Option Text) (startsAt endsAt : ℤ) (allDay : Bool) (rrule : Option Text) :
    Except AppError Unit := do
  if title.any fun t => (trim t).isEmpty then throw (.BadRequest "title_required")
  if endsAt < startsAt then throw (.BadRequest "ends_at_before_starts_at")
  match rrule with
  | some r => orInvalidRrule crate (validate paris crate r startsAt allDay)
  | none => return ()

/-- The checks of a scope other than `all`, and the rule and the occurrence the series is split at: none when the row is
    updated in place. -/
def occurrenceToSplit (db : Db Uuid) (eventId : Uuid) (existing : EventRow Uuid) (body : UpdateEventRequest Uuid) :
    Except AppError (Option (Text × OccurrenceInSeries)) :=
  let scope := body.scope.getD .All
  if scope = .All then .ok none
  else match body.occurrenceAt with
  | none => .error (.BadRequest "scope_requires_occurrence")
  | some occurrenceAt => match existing.rrule with
    | none => .error (.BadRequest "scope_requires_recurring_event")
    | some seriesRule =>
      if eventId ∈ db.imported then .error (.BadRequest "scope_not_allowed_for_imported_event")
      else match locateOccurrence paris crate seriesRule existing.allDay existing.startsAt existing.endsAt
          existing.exdates occurrenceAt with
        | .ok (some located) =>
          -- from the very first occurrence on is the whole series
          if scope = .This ∨ 0 < located.producedBefore then .ok (some (seriesRule, located)) else .ok none
        | _ => .error (.BadRequest "occurrence_not_in_series")

/-! ### The completions of a task, the reminders -/

section

variable (s : Session Uuid) (draws : Draws Uuid)

def isCompletion (event : Uuid) (p : ℤ → Bool) : Child Uuid → Bool
  | .completion e o _ _ => decide (e = event) && p o
  | _ => false

def isPendingNotification (event : Uuid) (p : ℤ → Bool) : Child Uuid → Bool
  | .notification _ e o _ status => decide (e = event) && p o && decide (status = .pending)
  | _ => false

def setOccurrenceCompletion (db : Db Uuid) (event : Uuid) (occurrenceAt : ℤ) (completed : Bool) (actor : Uuid) :
    Except Failure (Db Uuid) :=
  let done := isCompletion event (decide <| · = occurrenceAt)
  if completed then
    let row := Child.completion event occurrenceAt draws.now actor
    insertChild s db (fun rows => rows.filter (!done ·) ++ [row]) row
  else .ok (deleteChildren s db done)

/-- The completions of a series from an occurrence on, each on the instant it has in the new series. -/
def moveCompletions (db : Db Uuid) (seriesId : Uuid) (series : EventRow Uuid) (toId : Uuid) (to_ : EventRow Uuid)
    (occurrence : ℤ) : Except Failure (Db Uuid) :=
  if !series.isTask || to_.rrule.isNone then .ok db
  else
    let moved := isCompletion seriesId (decide <| occurrence ≤ ·)
    let rows := (selectChildren s db).filter moved
    rows.foldlM (fun db row =>
        match row with
        | .completion _ o completedAt completedBy =>
          match (carriedOver paris [o] series.allDay occurrence to_.startsAt).getLast? with
          | none => .ok db
          | some occurrenceAt =>
            let there := isCompletion toId (decide <| · = occurrenceAt)
            let row := Child.completion toId occurrenceAt completedAt completedBy
            insertChild s db (fun rows => if rows.any there then rows else rows ++ [row]) row
        | _ => .ok db)
      (deleteChildren s db moved)

/-- `refill_notifications`, for a reminder just copied. -/
def refillNotifications (db : Db Uuid) (reminder eventId : Uuid) (event : EventRow Uuid) (offsetMinutes : ℤ) :
    Except Failure (Db Uuid) :=
  match reminderOccurrences paris crate event.rrule event.allDay event.startsAt event.endsAt draws.now
      (draws.now + notificationWindow) event.exdates with
  | .error _ => .error .scheduling
  | .ok occurrences => occurrences.foldlM (fun db o =>
      let there : Child Uuid → Bool
        | .notification r _ o' _ _ => decide (r = reminder) && decide (o' = o)
        | _ => false
      let row := Child.notification reminder eventId o (fireAt offsetMinutes o) .pending
      insertChild s db (fun rows => if rows.any there then rows else rows ++ [row]) row) db

/-- The reminders of an event, each with the id of its copy. -/
def reminderCopies (db : Db Uuid) (from_ : Uuid) : List (Uuid × ℤ) :=
  (selectChildren s db).filterMap fun
    | .reminder id e offsetMinutes => if e = from_ then some (draws.copyId id, offsetMinutes) else none
    | _ => none

def copyReminders (db : Db Uuid) (from_ toId : Uuid) (event : EventRow Uuid) : Except Failure (Db Uuid) := do
  let copies := reminderCopies s draws db from_
  let db ← copies.foldlM (fun db copy =>
    let row := Child.reminder copy.1 toId copy.2
    insertChild s db (· ++ [row]) row) db
  copies.foldlM (fun db copy => refillNotifications paris crate s draws db copy.1 toId event copy.2) db

end

/-! ### The split of a series -/

variable (s : Session Uuid) (draws : Draws Uuid)

/-- What `split_series` works from. -/
structure Split (Uuid : Type) where
  seriesId : Uuid
  series : EventRow Uuid
  seriesRule : Text
  located : OccurrenceInSeries
  scope : EditScope
  body : UpdateEventRequest Uuid
  assigneeIds : Finset Uuid
  isPrivate : Bool

/-- When the occurrence of the series was completed. -/
def occurrenceCompletedAt (db : Db Uuid) (event : Uuid) (occurrenceAt : ℤ) : Option ℤ :=
  ((selectChildren s db).filter (isCompletion event (decide <| · = occurrenceAt))).head?.bind fun
    | .completion _ _ completedAt _ => some completedAt
    | _ => none

/-- The rule of the event that takes over: none for one occurrence, whatever the request carries. -/
def newRrule (split : Split Uuid) : Except AppError (Option Text) :=
  match split.scope, split.body.rrule with
  | .This, _ => .ok none
  | _, some r => .ok (if r.isEmpty then none else some r)
  | _, none => some <$> orInvalidRrule crate (continuedAfter crate split.seriesRule split.located.producedBefore)

/-- The event that takes over, shared: what is checked of it, and its columns. -/
def newEvent (db : Db Uuid) (split : Split Uuid) : Except AppError (EventRow Uuid) := do
  let { seriesId, series, located, scope, body, .. } := split
  let occurrenceStartsAt := located.span.1
  let allDay := body.allDay.getD series.allDay
  let startsAt := body.startsAt.getD occurrenceStartsAt
  let endsAt := body.endsAt.getD located.span.2
  let rrule ← newRrule crate split
  validateRequest paris crate body.title startsAt endsAt allDay rrule
  let (startsAt, endsAt) := normalizedBounds paris allDay startsAt endsAt
  if body.completed.isSome && !series.isTask then throw (.BadRequest "completed_only_valid_for_tasks")
  return {
    groupId := series.groupId
    createdBy := series.createdBy
    title := body.title.getD series.title
    description := body.description <|> series.description
    location := body.location <|> series.location
    startsAt, endsAt, allDay
    isTask := series.isTask
    -- a one-off task is completed on its row
    completedAt := match body.completed with
      | some true => if rrule.isNone then some draws.now else none
      | none => if scope = .This && series.isTask then occurrenceCompletedAt s db seriesId occurrenceStartsAt else none
      | some false => none
    rrule
    isPrivate := false
    exdates := match scope with
      | .This => []
      | _ => carriedOver paris series.exdates series.allDay occurrenceStartsAt startsAt }

/-- The new event is written shared, and made private once its assignees are there. -/
def createNewEvent (db : Db Uuid) (row : EventRow Uuid) (assigneeIds : Finset Uuid) (isPrivate : Bool) :
    Except Failure (Db Uuid × EventRow Uuid) := do
  let db ← insertEvent s db draws.newId row
  let db ← upsertAssignees s db draws.newId assigneeIds
  if isPrivate then
    let (db, row) ← updateEventRow s db draws.newId fun row => { row with isPrivate := true }
    return (db, ← fetchOne row)
  else
    return (db, row)

/-- The series excludes the occurrence. -/
def letGoOfOne (db : Db Uuid) (split : Split Uuid) : Except Failure (Db Uuid) := do
  let { seriesId, located, .. } := split
  let occurrenceStartsAt := located.span.1
  let (db, _) ← updateEventRow s db seriesId fun row => { row with exdates := row.exdates ++ [occurrenceStartsAt] }
  let db := deleteChildren s db (isCompletion seriesId (decide <| · = occurrenceStartsAt))
  return deleteChildren s db (isPendingNotification seriesId (decide <| · = occurrenceStartsAt))

/-- The series is cut before the occurrence, and its completions from there on go to the new one. -/
def letGoFromOn (db : Db Uuid) (split : Split Uuid) (created : EventRow Uuid) : Except Failure (Db Uuid) := do
  let { seriesId, series, seriesRule, located, body, .. } := split
  let occurrenceStartsAt := located.span.1
  let cut ← refuse (orInvalidRrule crate (truncatedBefore paris crate format seriesRule series.allDay occurrenceStartsAt))
  let (db, _) ← updateEventRow s db seriesId fun row => { row with rrule := some cut }
  let db ← moveCompletions paris s db seriesId series draws.newId created occurrenceStartsAt
  let db := deleteChildren s db (isPendingNotification seriesId (decide <| occurrenceStartsAt ≤ ·))
  match body.completed, created.rrule with
  | some completed, some _ => setOccurrenceCompletion s draws db draws.newId created.startsAt completed s.userId
  | _, _ => return db

/-- The series lets go of the occurrences, and of the notifications still pending for them. -/
def letGo (db : Db Uuid) (split : Split Uuid) (created : EventRow Uuid) : Except Failure (Db Uuid) :=
  match split.scope with
  | .This => letGoOfOne s db split
  | _ => letGoFromOn paris crate format s draws db split created

def splitSeries (db : Db Uuid) (split : Split Uuid) : Except Failure (Db Uuid × EventRow Uuid) := do
  let row ← refuse (newEvent paris crate s draws db split)
  let (db, created) ← createNewEvent s draws db row split.assigneeIds split.isPrivate
  let db ← letGo paris crate format s draws db split created
  let db ← copyReminders paris crate s draws db split.seriesId draws.newId created
  return (db, created)

/-! ### The row updated in place -/

/-- The columns an update in place writes, and what it checks of them. -/
def validUpdate (existing : EventRow Uuid) (body : UpdateEventRequest Uuid) :
    Except AppError (ℤ × ℤ × Option Text) := do
  let startsAt := body.startsAt.getD existing.startsAt
  let endsAt := body.endsAt.getD existing.endsAt
  let rrule := match body.rrule with
    | some r => if r.isEmpty then none else some r
    | none => existing.rrule
  let allDay := body.allDay.getD existing.allDay
  validateRequest paris crate body.title startsAt endsAt allDay rrule
  let (startsAt, endsAt) := normalizedBounds paris allDay startsAt endsAt
  if body.completed.isSome && !existing.isTask then throw (.BadRequest "completed_only_valid_for_tasks")
  return (startsAt, endsAt, rrule)

/-- A series is completed an occurrence at a time, a one-off on its row. -/
def complete (db : Db Uuid) (eventId : Uuid) (existing : EventRow Uuid) (body : UpdateEventRequest Uuid) :
    Except Failure (Db Uuid × Option ℤ) :=
  match existing.rrule, body.completed with
  | some _, some completed =>
    match body.occurrenceAt with
    | none => .error (.app (.BadRequest "occurrence_at_required_for_recurring_task"))
    | some occurrenceAt => do
      return (← setOccurrenceCompletion s draws db eventId occurrenceAt completed s.userId, existing.completedAt)
  | some _, none => .ok (db, existing.completedAt)
  | none, some true => .ok (db, some draws.now)
  | none, some false => .ok (db, none)
  | none, none => .ok (db, existing.completedAt)

/-- The columns the request writes over a row. -/
def UpdateEventRequest.rewrite (body : UpdateEventRequest Uuid) (columns : ℤ × ℤ × Option Text) (completedAt : Option ℤ)
    (willBePrivate : Bool) (row : EventRow Uuid) : EventRow Uuid :=
  { row with
    title := body.title.getD row.title
    description := body.description <|> row.description
    location := body.location <|> row.location
    startsAt := columns.1
    endsAt := columns.2.1
    allDay := body.allDay.getD row.allDay
    rrule := columns.2.2
    completedAt
    isPrivate := willBePrivate }

/-- `upsert_assignees`, when the request sets them. -/
def upsertNewAssignees (db : Db Uuid) (eventId : Uuid) : Option (Finset Uuid) → Except Failure (Db Uuid)
  | some users => upsertAssignees s db eventId users
  | none => .ok db

/-- `drop_other_assignees`, when the request sets them. -/
def dropOldAssignees (db : Db Uuid) (eventId : Uuid) : Option (Finset Uuid) → Db Uuid
  | some users => dropOtherAssignees s db eventId users
  | none => db

/-- The new assignees are written before the row, and the old ones deleted after it. -/
def updateInPlace (db : Db Uuid) (eventId : Uuid) (existing : EventRow Uuid) (body : UpdateEventRequest Uuid)
    (currentAssignees : Finset Uuid) (newAssignees : Option (Finset Uuid)) (willBePrivate : Bool) :
    Except Failure (Outcome Uuid) := do
  let columns ← refuse (validUpdate paris crate existing body)
  let (db, completedAt) ← complete s draws db eventId existing body
  let db ← upsertNewAssignees s db eventId newAssignees
  let (db, row) ← updateEventRow s db eventId (body.rewrite columns completedAt willBePrivate)
  let event ← fetchOne row
  return ⟨dropOldAssignees s db eventId newAssignees, eventId, event, newAssignees.getD currentAssignees⟩

/-! ### The handler -/

def updateEvent (db : Db Uuid) (eventId : Uuid) (body : UpdateEventRequest Uuid) : Except Failure (Outcome Uuid) := do
  let actorRole ← refuse (requireRole s db)
  let existing ← match selectEvent s db eventId with
    | some row => pure row
    | none => throw (.app .NotFound)
  let currentAssignees := assigneesForEvent s db eventId
  let actorIsParticipant := isParticipant s.userId existing.createdBy currentAssignees
  if !canModify actorRole (decide (existing.createdBy = s.userId)) (existing.isPrivate && actorIsParticipant) then
    throw (.app .Forbidden)
  let newAssignees := body.assigneeIds.map fun requested =>
    resolveAssignees requested (validMemberIds s db) existing.createdBy
  let willBePrivate := body.isPrivate.getD existing.isPrivate
  let assigneeIds := newAssignees.getD currentAssignees
  let actorParticipantAfter := isParticipant s.userId existing.createdBy assigneeIds
  if !maySetPrivacy existing.isPrivate willBePrivate actorParticipantAfter then throw (.app .Forbidden)
  match ← refuse (occurrenceToSplit paris crate db eventId existing body) with
  | some (seriesRule, located) =>
    let (db, event) ← splitSeries paris crate format s draws db
      { seriesId := eventId, series := existing, seriesRule, located, scope := body.scope.getD .All, body, assigneeIds
        isPrivate := willBePrivate }
    return ⟨db, draws.newId, event, assigneeIds⟩
  | none => updateInPlace paris crate s draws db eventId existing body currentAssignees newAssignees willBePrivate

end Home.Agenda.Events
