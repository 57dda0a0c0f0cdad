import ManageOurHome.Agenda.OnTime
import ManageOurHome.Agenda.Participants

/-! @src apps/api/src/agenda/events.rs, apps/api/migrations/0044_private_events.sql | layer:proof |
    family:private events

    What a request let through ends with. In place, no statement meets a policy error, whatever is asked. In a split the
    new event is shared until its assignees are there, and made private by an author who must be one of its participants
    by then: one who was a participant of the series and is none of the new event's meets the policy.

        author after   in place   split, shared   split, private
        participant    passes     passes          passes
        not            passes     passes          policy error -/

namespace Home.Agenda.Events

open FiniteMap Groups

variable {Uuid : Type}

/-- An id the database has not drawn yet. -/
structure Db.Unused (db : Db Uuid) (id : Uuid) : Prop where
  events : db.events.get id = none
  assignees : ∀ u, (id, u) ∉ db.assignees

/-- The series once an occurrence has left it, or those from it on. -/
inductive LetGo (series : EventRow Uuid) (scope : EditScope) (occurrence : ℤ) : EventRow Uuid → Prop where
  | this (hscope : scope = .This) :
      LetGo series scope occurrence { series with exdates := series.exdates ++ [occurrence] }
  | cut (hscope : scope ≠ .This) (rrule : Text) : LetGo series scope occurrence { series with rrule := some rrule }

theorem LetGo.audience_eq {series row : EventRow Uuid} {scope : EditScope} {occurrence : ℤ}
    (h : LetGo series scope occurrence row) : row.audience = series.audience := by
  cases h with
  | this => rfl
  | cut => rfl

variable [DecidableEq Uuid] {paris : Paris} {crate : Rrule} {format : Format} {s : Session Uuid} {draws : Draws Uuid}
  {db db' : Db Uuid} {id e : Uuid} {row series : EventRow Uuid} {users : Finset Uuid}

/-! ### The split, statement by statement -/

/-- STEP: the new event is refused exactly if it is to be private and the author is no participant of it. -/
theorem createNewEvent_eq {isPrivate : Bool} (hgroup : row.groupId = s.groupId) (hshared : row.isPrivate = false)
    (hunused : db.Unused draws.newId) :
    createNewEvent s draws db row users isPrivate =
      if isPrivate && !isParticipant s.userId row.createdBy users then .error .policy
      else .ok ({ db with events := db.events.set draws.newId (some { row with isPrivate := isPrivate })
                          assignees := db.assignees ∪ users.image (Prod.mk draws.newId) },
                { row with isPrivate := isPrivate }) := by
  have hinsert : insertEvent s db draws.newId row =
      .ok { db with events := db.events.set draws.newId (some row) } :=
    if_pos (eventsIsolation_iff.mpr ⟨hgroup, .inl hshared⟩)
  have hselect : ∀ assignees, selectEvent s
      { db with events := db.events.set draws.newId (some row), assignees := assignees } draws.newId = some row := by
    intro assignees
    exact selectEvent_eq_some.mpr ⟨FMap.get_set_self _ _ _, eventsIsolation_iff.mpr ⟨hgroup, .inl hshared⟩⟩
  have hupsert := @upsertAssignees_of_sees _ _ _ _ _ users (seesEvent_of_select (hselect db.assignees))
  rw [createNewEvent, hinsert]
  simp only [bind, Except.bind, hupsert]
  cases isPrivate with
  | false =>
    obtain ⟨⟩ := row
    obtain rfl := hshared
    rfl
  | true =>
    have hmember : (draws.newId, s.userId) ∈ db.assignees ∪ users.image (Prod.mk draws.newId) ↔ s.userId ∈ users := by
      rw [mem_upserted]
      exact ⟨fun h => (h.resolve_left (hunused.assignees _)).2, fun h => .inr ⟨rfl, h⟩⟩
    have hisolation : eventsIsolation s
        { db with events := db.events.set draws.newId (some row)
                  assignees := db.assignees ∪ users.image (Prod.mk draws.newId) } draws.newId
        { row with isPrivate := true } = isParticipant s.userId row.createdBy users := by
      rw [Bool.eq_iff_iff, eventsIsolation_iff, isParticipant_iff, hmember]
      simp [hgroup]
    simp only [if_true, updateEventRow_of_select (hselect _), hisolation, Bool.true_and]
    cases isParticipant s.userId row.createdBy users with
    | true => simp [fetchOne, pure, Except.pure]
    | false => simp

section

variable {split : Split Uuid} {created : EventRow Uuid}

/-- The series has let go of the occurrences, and nothing else has changed of the events. -/
def LetsGo (db : Db Uuid) (split : Split Uuid) (db' : Db Uuid) : Prop :=
  ∃ row, LetGo split.series split.scope split.located.span.1 row ∧
    SameEvents { db with events := db.events.set split.seriesId (some row) } db'

theorem fine_letGoOfOne (hseries : selectEvent s db split.seriesId = some split.series) (hscope : split.scope = .This) :
    Fine (letGoOfOne s db split) (LetsGo db split) := by
  have hupdate := updateEventRow_of_audience
    (fun row : EventRow Uuid => { row with exdates := row.exdates ++ [split.located.span.1] }) hseries rfl
  rw [letGoOfOne]
  simp only [hupdate]
  exact ⟨_, .this hscope, (sameEvents_deleteChildren _ _ _).trans (sameEvents_deleteChildren _ _ _)⟩

theorem fine_letGoFromOn (hseries : selectEvent s db split.seriesId = some split.series) (hscope : split.scope ≠ .This)
    (hnew : seesEvent s db draws.newId = true) (hne : draws.newId ≠ split.seriesId) :
    Fine (letGoFromOn paris crate format s draws db split created) (LetsGo db split) := by
  rw [letGoFromOn]
  refine Fine.bind (fine_refuse fun cut _ => trivial) fun cut (_ : True) => ?_
  have hupdate := updateEventRow_of_audience (fun row : EventRow Uuid => { row with rrule := some cut }) hseries rfl
  simp only [hupdate]
  have hsees : seesEvent s { db with events := db.events.set split.seriesId (some { split.series with rrule := some cut }) }
      draws.newId = true := by
    rw [seesEvent, selectEvent, FMap.get_set_ne _ _ hne]
    exact hnew
  refine (fine_moveCompletions hsees).bind fun db' hmoved => ?_
  have hdeleted := hmoved.trans (sameEvents_deleteChildren s db'
    (isPendingNotification split.seriesId (decide <| split.located.span.1 ≤ ·)))
  split
  · have hsees' := (hdeleted.seesEvent_eq draws.newId).trans hsees
    refine (fine_setOccurrenceCompletion hsees').mono fun db'' hsame => ?_
    exact ⟨_, .cut hscope cut, hdeleted.trans hsame⟩
  · exact ⟨_, .cut hscope cut, hdeleted⟩

/-- STEP: the series the author sees lets go of the occurrences. -/
theorem fine_letGo (hseries : selectEvent s db split.seriesId = some split.series)
    (hnew : seesEvent s db draws.newId = true) (hne : draws.newId ≠ split.seriesId) :
    Fine (letGo paris crate format s draws db split created) (LetsGo db split) := by
  rw [letGo]
  split
  · rename_i hscope
    exact fine_letGoOfOne hseries hscope
  · rename_i hscope
    exact fine_letGoFromOn hseries hscope hnew hne

end

/-! ### What is written -/

/-- What the request asks the event to be: private or not, and for whom. -/
def askedPrivacy (existing : EventRow Uuid) (body : UpdateEventRequest Uuid) : Bool :=
  body.isPrivate.getD existing.isPrivate

def askedAssignees (s : Session Uuid) (db : Db Uuid) (eventId : Uuid) (existing : EventRow Uuid)
    (body : UpdateEventRequest Uuid) : Finset Uuid :=
  match body.assigneeIds with
  | some requested => resolveAssignees requested (validMemberIds s db) existing.createdBy
  | none => assigneesOf db eventId

/-- At commit: the event written is as asked, and every other one has the audience and the assignees it had. -/
structure Written (db : Db Uuid) (eventId : Uuid) (existing : EventRow Uuid) (scope : EditScope) (isPrivate : Bool)
    (users : Finset Uuid) (out : Outcome Uuid) : Prop where
  stored : out.db.events.get out.event = some out.row
  audience : out.row.audience = (existing.groupId, existing.createdBy, isPrivate)
  assignees : assigneesOf out.db out.event = users
  answered : out.assigneeIds = users
  series : out.event ≠ eventId →
    ∃ row occurrence, LetGo existing scope occurrence row ∧ out.db.events.get eventId = some row
  others : ∀ e ≠ out.event, (out.db.events.get e).map EventRow.audience = (db.events.get e).map EventRow.audience ∧
    assigneesOf out.db e = assigneesOf db e

/-! ### The split -/

theorem newEvent_audience {split : Split Uuid} (h : newEvent paris crate s draws db split = .ok row) :
    row.audience = (split.series.groupId, split.series.createdBy, false) := by
  simp only [newEvent, bind_eq_ok, guard_eq_ok] at h
  obtain ⟨rrule, -, -, -, -, hrow⟩ := h
  obtain rfl := Except.ok.inj hrow
  rfl

/-- RUN: a split whose new event is shared, or has the author among its participants. -/
theorem fine_splitSeries {split : Split Uuid} (hseries : selectEvent s db split.seriesId = some split.series)
    (hunused : db.Unused draws.newId)
    (hpart : split.isPrivate = true → isParticipant s.userId split.series.createdBy split.assigneeIds = true) :
    Fine (splitSeries paris crate format s draws db split) fun r =>
      Written db split.seriesId split.series split.scope split.isPrivate split.assigneeIds
        ⟨r.1, draws.newId, r.2, split.assigneeIds⟩ := by
  obtain ⟨hget, hisolated⟩ := selectEvent_eq_some.mp hseries
  have hne : draws.newId ≠ split.seriesId := by
    intro heq
    rw [← heq, hunused.events] at hget
    exact absurd hget (by simp)
  refine Fine.bind (fine_refuse fun row hrow => hrow) fun row (hrow : newEvent _ _ _ _ _ _ = _) => ?_
  obtain ⟨hgroup, hrest⟩ := Prod.mk.inj (newEvent_audience hrow)
  obtain ⟨hcreator, hshared⟩ := Prod.mk.inj hrest
  have hgroup' : row.groupId = s.groupId := hgroup.trans (eventsIsolation_iff.mp hisolated).1
  have hadmitted : (split.isPrivate && !isParticipant s.userId row.createdBy split.assigneeIds) = false := by
    rw [hcreator]
    cases hprivate : split.isPrivate with
    | false => rfl
    | true => simp [hpart hprivate]
  have hcreate := @createNewEvent_eq _ _ s draws db row split.assigneeIds split.isPrivate hgroup' hshared hunused
  rw [hadmitted, if_neg (by simp)] at hcreate
  simp only [hcreate]
  -- the author sees the series as before, and the new event
  have hseries' : selectEvent s { db with
      events := db.events.set draws.newId (some { row with isPrivate := split.isPrivate })
      assignees := db.assignees ∪ split.assigneeIds.image (Prod.mk draws.newId) } split.seriesId = some split.series := by
    refine selectEvent_eq_some.mpr ⟨?_, eventsIsolation_mono hisolated Finset.subset_union_left⟩
    rw [FMap.get_set_ne _ _ hne.symm]
    exact hget
  have hnew : selectEvent s { db with
      events := db.events.set draws.newId (some { row with isPrivate := split.isPrivate })
      assignees := db.assignees ∪ split.assigneeIds.image (Prod.mk draws.newId) } draws.newId =
        some { row with isPrivate := split.isPrivate } := by
    refine selectEvent_eq_some.mpr ⟨FMap.get_set_self _ _ _, eventsIsolation_iff.mpr ⟨hgroup', ?_⟩⟩
    cases hprivate : split.isPrivate with
    | false => exact .inl rfl
    | true =>
      rcases isParticipant_iff.mp (hpart hprivate) with hauthor | hmem
      · exact .inr (.inl (hcreator.trans hauthor))
      · exact .inr (.inr (mem_upserted.mpr (.inr ⟨rfl, hmem⟩)))
  refine (fine_letGo hseries' (seesEvent_of_select hnew) hne).bind fun db' hletsgo => ?_
  obtain ⟨seriesRow, hletgo, hsame⟩ := hletsgo
  have hsees : seesEvent s db' draws.newId = true := by
    rw [hsame.seesEvent_eq, seesEvent, selectEvent, FMap.get_set_ne _ _ hne]
    exact seesEvent_of_select hnew
  refine (fine_copyReminders hsees).bind fun db'' hcopied => ?_
  have hend := hsame.trans hcopied
  constructor
  · show db''.events.get draws.newId = _
    rw [hend.events, FMap.get_set_ne _ _ hne, FMap.get_set_self]
  · show (_, _, _) = _
    rw [hgroup, hcreator]
  · ext u
    rw [mem_assigneesOf]
    show (draws.newId, u) ∈ db''.assignees ↔ _
    rw [hend.assignees, mem_upserted]
    exact ⟨fun h => (h.resolve_left (hunused.assignees u)).2, fun h => .inr ⟨rfl, h⟩⟩
  · rfl
  · intro _
    refine ⟨seriesRow, _, hletgo, ?_⟩
    show db''.events.get split.seriesId = _
    rw [hend.events, FMap.get_set_self]
  · intro e he
    constructor
    · show (db''.events.get e).map EventRow.audience = _
      rw [hend.events]
      by_cases heq : e = split.seriesId
      · rw [heq, FMap.get_set_self, hget]
        exact congrArg some hletgo.audience_eq
      · rw [FMap.get_set_ne _ _ heq, FMap.get_set_ne _ _ he]
    · ext u
      rw [mem_assigneesOf, mem_assigneesOf]
      show (e, u) ∈ db''.assignees ↔ _
      rw [hend.assignees, mem_upserted]
      exact or_iff_left fun h => he h.1

/-! ### The row updated in place -/

section

variable {eventId : Uuid} {existing : EventRow Uuid} {body : UpdateEventRequest Uuid} {isPrivate : Bool}

theorem fine_complete (h : seesEvent s db eventId = true) :
    Fine (complete s draws db eventId existing body) fun r => SameEvents db r.1 := by
  rw [complete]
  split
  · split
    · exact trivial
    · exact (fine_setOccurrenceCompletion h).bind fun db' hsame => hsame
  all_goals exact SameEvents.refl db

/-- A row as the author may write it: shared, or with them its creator or among its assignees. -/
theorem eventsIsolation_of_member {row' : EventRow Uuid} (h : selectEvent s db id = some row)
    (hrow' : row'.audience = (row.groupId, row.createdBy, isPrivate))
    (hmember : isPrivate = true → row.createdBy = s.userId ∨ (id, s.userId) ∈ db.assignees) :
    eventsIsolation s db id row' = true := by
  obtain ⟨hgroup, hrest⟩ := Prod.mk.inj hrow'
  obtain ⟨hcreator, hprivate⟩ := Prod.mk.inj hrest
  refine eventsIsolation_iff.mpr ⟨hgroup.trans (eventsIsolation_iff.mp (selectEvent_eq_some.mp h).2).1, ?_⟩
  rw [hcreator, hprivate]
  cases isPrivate with
  | false => exact .inl rfl
  | true => exact .inr (hmember rfl)

@[simp] theorem dropOldAssignees_events (newAssignees : Option (Finset Uuid)) :
    (dropOldAssignees s db id newAssignees).events = db.events := by
  cases newAssignees <;> rfl

/-- The assignees of an event between the two halves of a replacement: the old ones, and the new ones. -/
theorem upsertNewAssignees_of_select {newAssignees : Option (Finset Uuid)} (h : selectEvent s db id = some row) :
    ∃ assignees, upsertNewAssignees s db id newAssignees = .ok { db with assignees := assignees } ∧
      ∀ e u, (e, u) ∈ assignees ↔ (e, u) ∈ db.assignees ∨ e = id ∧ u ∈ newAssignees.getD ∅ := by
  cases newAssignees with
  | none => exact ⟨db.assignees, rfl, fun e u => by simp⟩
  | some users => exact ⟨_, upsertAssignees_of_sees (seesEvent_of_select h), fun e u => mem_upserted⟩

/-- The old assignees go, and the new ones are left. -/
theorem mem_dropOldAssignees {newAssignees : Option (Finset Uuid)} {assignees : Finset (Uuid × Uuid)}
    (hsees : seesEvent s db id = true)
    (hmem : ∀ e u, (e, u) ∈ db.assignees ↔ (e, u) ∈ assignees ∨ e = id ∧ u ∈ newAssignees.getD ∅) {u : Uuid} :
    (e, u) ∈ (dropOldAssignees s db id newAssignees).assignees ↔
      if e = id then newAssignees.elim ((e, u) ∈ assignees) (u ∈ ·) else (e, u) ∈ assignees := by
  cases newAssignees with
  | none =>
    rw [dropOldAssignees, hmem]
    simp
  | some users =>
    rw [dropOldAssignees, dropOtherAssignees, Finset.mem_filter, hmem]
    by_cases he : e = id
    · subst he
      simp [hsees]
      tauto
    · simp [he]

/-- RUN: an update in place, by an author who may set the privacy. -/
theorem fine_updateInPlace (hexisting : selectEvent s db eventId = some existing)
    (hmay : maySetPrivacy existing.isPrivate isPrivate
      (isParticipant s.userId existing.createdBy (askedAssignees s db eventId existing body)) = true) :
    Fine (updateInPlace paris crate s draws db eventId existing body (assigneesOf db eventId)
        (body.assigneeIds.map fun requested => resolveAssignees requested (validMemberIds s db) existing.createdBy)
        isPrivate)
      (Written db eventId existing (body.scope.getD .All) isPrivate (askedAssignees s db eventId existing body)) := by
  obtain ⟨hget, hisolated⟩ := selectEvent_eq_some.mp hexisting
  refine Fine.bind (fine_refuse fun columns _ => trivial) fun columns (_ : True) => ?_
  refine (fine_complete (seesEvent_of_select hexisting)).bind fun ⟨db₁, completedAt⟩ hsame => ?_
  have hexisting₁ : selectEvent s db₁ eventId = some existing := (hsame.selectEvent_eq eventId).trans hexisting
  generalize hnew : body.assigneeIds.map (fun requested =>
    resolveAssignees requested (validMemberIds s db) existing.createdBy) = newAssignees
  have hasked : askedAssignees s db eventId existing body = newAssignees.getD (assigneesOf db eventId) := by
    rw [← hnew, askedAssignees]
    cases body.assigneeIds with
    | none => rfl
    | some requested => rfl
  rw [hasked] at hmay ⊢
  obtain ⟨assignees, hupsert, hmem⟩ := @upsertNewAssignees_of_select _ _ _ _ _ _ newAssignees hexisting₁
  rw [hsame.assignees] at hmem
  show Fine (upsertNewAssignees s db₁ eventId newAssignees >>= _) _
  rw [hupsert]
  have hexisting₂ : selectEvent s { db₁ with assignees := assignees } eventId = some existing := by
    refine selectEvent_eq_some.mpr ⟨(selectEvent_eq_some.mp hexisting₁).1, eventsIsolation_mono hisolated ?_⟩
    exact fun ⟨e, u⟩ he => (hmem e u).mpr (.inl he)
  -- a private event stays so with those who see it, a shared one is made so by a participant
  have hmember : isPrivate = true → existing.createdBy = s.userId ∨ (eventId, s.userId) ∈ assignees := by
    intro hprivate
    cases hwas : existing.isPrivate with
    | true =>
      have hseen := (eventsIsolation_iff.mp hisolated).2.resolve_left (by simp [hwas])
      exact hseen.imp_right fun h => (hmem _ _).mpr (.inl h)
    | false =>
      have hafter : isParticipant s.userId existing.createdBy (newAssignees.getD (assigneesOf db eventId)) = true := by
        simpa [maySetPrivacy, hprivate, hwas] using hmay
      refine (isParticipant_iff.mp hafter).imp_right fun h => (hmem _ _).mpr ?_
      cases newAssignees with
      | none => exact .inl (mem_assigneesOf.mp h)
      | some users => exact .inr ⟨rfl, h⟩
  have hisolated₂ : eventsIsolation s { db₁ with assignees := assignees } eventId
      (body.rewrite columns completedAt isPrivate existing) = true := eventsIsolation_of_member hexisting₂ rfl hmember
  show Fine (updateEventRow s { db₁ with assignees := assignees } eventId _ >>= _) _
  rw [updateEventRow_of_select hexisting₂, if_pos hisolated₂]
  have hrewritten : seesEvent s { db₁ with
      events := db₁.events.set eventId (some (body.rewrite columns completedAt isPrivate existing))
      assignees := assignees } eventId = true :=
    seesEvent_of_select (selectEvent_eq_some.mpr ⟨FMap.get_set_self _ _ _, hisolated₂⟩)
  have hdropped : ∀ e u, (e, u) ∈ (dropOldAssignees s { db₁ with
      events := db₁.events.set eventId (some (body.rewrite columns completedAt isPrivate existing))
      assignees := assignees } eventId newAssignees).assignees ↔
        if e = eventId then newAssignees.elim ((e, u) ∈ db.assignees) (u ∈ ·) else (e, u) ∈ db.assignees :=
    fun e u => mem_dropOldAssignees hrewritten hmem
  constructor
  · exact (congrArg (FMap.get · eventId) (dropOldAssignees_events newAssignees)).trans (FMap.get_set_self _ _ _)
  · rfl
  · ext u
    rw [mem_assigneesOf]
    refine (hdropped eventId u).trans ?_
    rw [if_pos rfl]
    cases newAssignees with
    | none => exact mem_assigneesOf.symm
    | some users => exact Iff.rfl
  · rfl
  · exact fun hne => absurd rfl hne
  · intro e he
    constructor
    · refine (congrArg (fun events => (FMap.get events e).map EventRow.audience)
        (dropOldAssignees_events newAssignees)).trans ?_
      show ((db₁.events.set eventId _).get e).map EventRow.audience = _
      rw [FMap.get_set_ne _ _ he, hsame.events]
    · ext u
      rw [mem_assigneesOf, mem_assigneesOf]
      refine (hdropped e u).trans ?_
      rw [if_neg he]

end

/-! ### The request -/

section

variable {eventId : Uuid} {existing : EventRow Uuid} {body : UpdateEventRequest Uuid}

/-- Whether the request cuts the series: at one occurrence, or from one on that is not its very first. -/
def Splits (paris : Paris) (crate : Rrule) (existing : EventRow Uuid) (body : UpdateEventRequest Uuid) : Prop :=
  body.scope = some .This ∨ body.scope = some .ThisAndFollowing ∧ ∃ rule at_ located,
    existing.rrule = some rule ∧ body.occurrenceAt = some at_ ∧
    locateOccurrence paris crate rule existing.allDay existing.startsAt existing.endsAt existing.exdates at_ =
      .ok (some located) ∧ 0 < located.producedBefore

theorem occurrenceToSplit_isSome {r : Option (Text × OccurrenceInSeries)}
    (h : occurrenceToSplit paris crate db eventId existing body = .ok r) :
    r.isSome = true ↔ Splits paris crate existing body := by
  rw [occurrenceToSplit] at h
  cases hscope : body.scope with
  | none =>
    simp only [hscope, Option.getD_none, if_true] at h
    obtain rfl := Except.ok.inj h
    simp [Splits, hscope]
  | some scope =>
    simp only [hscope, Option.getD_some] at h
    by_cases hall : scope = .All
    · rw [if_pos hall] at h
      obtain rfl := Except.ok.inj h
      simp [Splits, hscope, hall]
    · rw [if_neg hall] at h
      obtain ⟨at_, hat⟩ : ∃ at_, body.occurrenceAt = some at_ := by
        cases hat : body.occurrenceAt with
        | none => simp [hat] at h
        | some at_ => exact ⟨at_, rfl⟩
      obtain ⟨rule, hrule⟩ : ∃ rule, existing.rrule = some rule := by
        cases hrule : existing.rrule with
        | none => simp [hat, hrule] at h
        | some rule => exact ⟨rule, rfl⟩
      have himported : eventId ∉ db.imported := by
        intro himported
        simp [hat, hrule, himported] at h
      simp only [hat, hrule, if_neg himported] at h
      split at h
      · rename_i located hlocated
        have hsplits : Splits paris crate existing body ↔ scope = .This ∨ 0 < located.producedBefore := by
          constructor
          · rintro (hthis | ⟨-, rule', at', located', hrule', hat', hlocated', hpos⟩)
            · exact .inl (Option.some.inj (hscope.symm.trans hthis))
            · obtain rfl := Option.some.inj (hrule.symm.trans hrule')
              obtain rfl := Option.some.inj (hat.symm.trans hat')
              rw [hlocated] at hlocated'
              obtain rfl := Option.some.inj (Except.ok.inj hlocated')
              exact .inr hpos
          · intro hcut
            cases scope with
            | All => exact absurd rfl hall
            | This => exact .inl hscope
            | ThisAndFollowing =>
              exact .inr ⟨hscope, rule, at_, located, hrule, hat, hlocated, hcut.resolve_left (by simp)⟩
        rw [hsplits]
        split at h
        · rename_i hcut
          obtain rfl := Except.ok.inj h
          exact iff_of_true rfl hcut
        · rename_i hcut
          obtain rfl := Except.ok.inj h
          exact iff_of_false (by simp) hcut
      · exact absurd h (by simp)

/-- What a request that is let through was found to be, and what is left of it to run. -/
theorem updateEvent_through (hfound : db.events.get eventId = some existing)
    (hthrough : ∀ e, updateEvent paris crate format s draws db eventId body ≠ .error (.app e)) :
    selectEvent s db eventId = some existing ∧
    maySetPrivacy existing.isPrivate (askedPrivacy existing body)
      (isParticipant s.userId existing.createdBy (askedAssignees s db eventId existing body)) = true ∧
    ∃ r, occurrenceToSplit paris crate db eventId existing body = .ok r ∧
      updateEvent paris crate format s draws db eventId body = match r with
        | some (seriesRule, located) => do
          let (db', event) ← splitSeries paris crate format s draws db
            ⟨eventId, existing, seriesRule, located, body.scope.getD .All, body,
              askedAssignees s db eventId existing body, askedPrivacy existing body⟩
          return ⟨db', draws.newId, event, askedAssignees s db eventId existing body⟩
        | none => updateInPlace paris crate s draws db eventId existing body (assigneesOf db eventId)
          (body.assigneeIds.map fun requested => resolveAssignees requested (validMemberIds s db) existing.createdBy)
          (askedPrivacy existing body) := by
  rw [updateEvent] at hthrough ⊢
  cases hrole : requireRole s db with
  | error e => exact absurd rfl (hrole ▸ hthrough e)
  | ok actorRole =>
  rw [hrole] at hthrough
  cases hselect : selectEvent s db eventId with
  | none => exact absurd rfl (hselect ▸ hthrough .NotFound)
  | some row =>
  obtain rfl : row = existing := Option.some.inj ((selectEvent_eq_some.mp hselect).1.symm.trans hfound)
  have hasked : (body.assigneeIds.map fun requested =>
      resolveAssignees requested (validMemberIds s db) row.createdBy).getD (assigneesOf db eventId) =
        askedAssignees s db eventId row body := by
    rw [askedAssignees]
    cases body.assigneeIds with
    | none => rfl
    | some requested => rfl
  rw [hselect, assigneesForEvent_of_select hselect] at hthrough
  rw [assigneesForEvent_of_select hselect]
  simp only [refuse, pure, Except.pure, bind, Except.bind, hasked] at hthrough ⊢
  refine ⟨trivial, ?_⟩
  have hmodify : canModify actorRole (decide (row.createdBy = s.userId))
      (row.isPrivate && isParticipant s.userId row.createdBy (assigneesOf db eventId)) = true := by
    by_contra hnot
    rw [Bool.not_eq_true] at hnot
    exact hthrough .Forbidden (by simp [hnot, throw, throwThe, MonadExceptOf.throw])
  have hmay : maySetPrivacy row.isPrivate (askedPrivacy row body)
      (isParticipant s.userId row.createdBy (askedAssignees s db eventId row body)) = true := by
    by_contra hnot
    rw [askedPrivacy, Bool.not_eq_true] at hnot
    exact hthrough .Forbidden (by simp [hmodify, hnot, throw, throwThe, MonadExceptOf.throw])
  refine ⟨hmay, ?_⟩
  rw [askedPrivacy] at hmay ⊢
  simp only [hmodify, hmay, Bool.not_true, Bool.false_eq_true, if_false] at hthrough ⊢
  cases hsplit : occurrenceToSplit paris crate db eventId row body with
  | error e => exact absurd (by rw [hsplit]) (hthrough e)
  | ok r =>
    refine ⟨r, rfl, ?_⟩
    cases r with
    | none => rfl
    | some r => rfl

/-- Whoever is no participant of a private event reads nothing of it. -/
def Hides (db : Db Uuid) : Prop :=
  ∀ (s : Session Uuid) id row, db.events.get id = some row → row.isPrivate = true →
    isParticipant s.userId row.createdBy (assigneesOf db id) = false →
    selectEvent s db id = none ∧ (∀ child ∈ selectChildren s db, child.event ≠ id) ∧ assigneesForEvent s db id = ∅

theorem hides (db : Db Uuid) : Hides db := by
  intro s id row hget hprivate hnot
  have hselect : selectEvent s db id = none := by
    cases hselect : selectEvent s db id with
    | none => rfl
    | some row' =>
      obtain ⟨hget', hisolated⟩ := selectEvent_eq_some.mp hselect
      obtain rfl := Option.some.inj (hget.symm.trans hget')
      have hseen := (eventsIsolation_iff.mp hisolated).2.resolve_left (by simp [hprivate])
      rw [isParticipant_iff.mpr (hseen.imp_right mem_assigneesOf.mpr)] at hnot
      exact absurd hnot (by simp)
  have hsees : seesEvent s db id = false := by rw [seesEvent, hselect]; rfl
  refine ⟨hselect, fun child hchild heq => ?_, ?_⟩
  · rw [selectChildren, List.mem_filter, heq, hsees] at hchild
    exact absurd hchild.2 (by simp)
  · rw [assigneesForEvent, Finset.image_eq_empty, Finset.filter_eq_empty_iff]
    rintro p - ⟨rfl, hp⟩
    rw [hsees] at hp
    exact absurd hp (by simp)

/-- The `UPDATE` that makes the new event private, by an author who is none of its participants. -/
theorem splitSeries_refused {split : Split Uuid} (hseries : selectEvent s db split.seriesId = some split.series)
    (hunused : db.Unused draws.newId) (hnew : newEvent paris crate s draws db split = .ok row)
    (hprivate : split.isPrivate = true)
    (hnot : isParticipant s.userId split.series.createdBy split.assigneeIds = false) :
    splitSeries paris crate format s draws db split = .error .policy := by
  obtain ⟨hgroup, hrest⟩ := Prod.mk.inj (newEvent_audience hnew)
  obtain ⟨hcreator, hshared⟩ := Prod.mk.inj hrest
  have hgroup' : row.groupId = s.groupId :=
    hgroup.trans (eventsIsolation_iff.mp (selectEvent_eq_some.mp hseries).2).1
  rw [splitSeries, hnew]
  simp only [refuse, bind, Except.bind, createNewEvent_eq hgroup' hshared hunused, hprivate, hcreator, hnot,
    Bool.not_false, Bool.and_self, if_true]

/-- CORRECT: a request let through meets no policy error and writes what it asks, unless it cuts the series into a new
    event that is private and whose participants its author is not one of. -/
theorem passes_policies (hfound : db.events.get eventId = some existing) (hunused : db.Unused draws.newId)
    (hthrough : ∀ e, updateEvent paris crate format s draws db eventId body ≠ .error (.app e)) :
    (Fine (updateEvent paris crate format s draws db eventId body) fun out =>
        Written db eventId existing (body.scope.getD .All) (askedPrivacy existing body)
          (askedAssignees s db eventId existing body) out ∧ Hides out.db) ↔
      ¬(Splits paris crate existing body ∧ askedPrivacy existing body = true ∧
        isParticipant s.userId existing.createdBy (askedAssignees s db eventId existing body) = false) := by
  obtain ⟨hselect, hmay, r, hsplit, hrun⟩ := updateEvent_through hfound hthrough
  have hsome := occurrenceToSplit_isSome hsplit
  cases r with
  | none =>
    have hnot : ¬Splits paris crate existing body := fun h => absurd (hsome.mpr h) (by simp)
    refine iff_of_true ?_ fun h => hnot h.1
    rw [hrun]
    exact (fine_updateInPlace hselect hmay).mono fun out hwritten => ⟨hwritten, hides out.db⟩
  | some r =>
    obtain ⟨seriesRule, located⟩ := r
    have hsplits : Splits paris crate existing body := hsome.mp rfl
    simp only at hrun
    constructor
    · rintro hfine ⟨-, hprivate, hnot⟩
      rw [hrun] at hfine
      cases hnew : newEvent paris crate s draws db ⟨eventId, existing, seriesRule, located, body.scope.getD .All, body,
          askedAssignees s db eventId existing body, askedPrivacy existing body⟩ with
      | error e =>
        refine hthrough e ?_
        rw [hrun, splitSeries, hnew]
        rfl
      | ok row =>
        rw [splitSeries_refused hselect hunused hnew hprivate hnot] at hfine
        exact hfine
    · intro hnot
      have hpart : askedPrivacy existing body = true →
          isParticipant s.userId existing.createdBy (askedAssignees s db eventId existing body) = true := by
        intro hprivate
        by_contra hout
        exact hnot ⟨hsplits, hprivate, by simpa using hout⟩
      rw [hrun]
      refine Fine.bind (fine_splitSeries hselect hunused hpart) fun r hwritten => ?_
      exact ⟨hwritten, hides r.1⟩

end

/-! ### A dinner between two -/

/-- The private series of 1, shared with 2. -/
def dinnerRow : EventRow ℕ :=
  ⟨0, 1, "Dinner".toList, none, none, dinner.startsAt, dinner.endsAt, false, false, none, dinner.rrule, true, []⟩

def dinnerDb : Db ℕ where
  members := (FMap.empty.set (0, 1) (some .owner)).set (0, 2) (some .standard)
  imported := ∅
  events := FMap.empty.set 10 (some dinnerRow)
  assignees := {(10, 1), (10, 2)}
  children := [.reminder 20 10 60]

def dinnerDraws : Draws ℕ := ⟨0, 11, (· + 100)⟩

/-- 2 leaves one occurrence of it to 1, or all of them. -/
def leaves (scope : EditScope) : UpdateEventRequest ℕ :=
  ⟨none, none, none, none, none, none, none, none, some dinnerAt, some [1], none, some scope⟩

def noFormat : Format := ⟨fun _ => [], fun _ => []⟩

theorem unused_dinner : dinnerDb.Unused dinnerDraws.newId := ⟨by decide, by
  intro u
  simp [dinnerDb, dinnerDraws]⟩

/-- What a request ends with, without the rows. -/
def ending {α : Type} : Except Failure α → Option Failure
  | .ok _ => none
  | .error e => some e

/-- 2 leaves every occurrence: nothing is refused, and the series is private and for 1. -/
theorem passes_policies_dinner :
    Fine (updateEvent europeParis dinnerCrate noFormat ⟨0, 2⟩ dinnerDraws dinnerDb 10 (leaves .All)) fun out =>
      Written dinnerDb 10 dinnerRow .All true {1} out ∧ Hides out.db := by
  have hend : ending (updateEvent europeParis dinnerCrate noFormat ⟨0, 2⟩ dinnerDraws dinnerDb 10 (leaves .All)) =
      none := by decide +kernel
  have hthrough : ∀ e, updateEvent europeParis dinnerCrate noFormat ⟨0, 2⟩ dinnerDraws dinnerDb 10 (leaves .All) ≠
      .error (.app e) := by
    intro e he
    rw [he] at hend
    exact absurd hend (by simp [ending])
  have hpasses := (@passes_policies ℕ _ europeParis dinnerCrate noFormat ⟨0, 2⟩ dinnerDraws dinnerDb 10 dinnerRow
    (leaves .All) rfl unused_dinner hthrough).mpr (by simp [Splits, leaves])
  have hasked : askedAssignees ⟨0, 2⟩ dinnerDb 10 dinnerRow (leaves .All) = {1} := by decide
  rw [hasked] at hpasses
  exact hpasses

/-- 2 leaves one occurrence: the one-off event is private, for 1, and the `UPDATE` that makes it so is refused. -/
theorem private_split_refused : ¬∀ (paris : Paris) (crate : Rrule) (format : Format) (s : Session ℕ) (draws : Draws ℕ)
    (db : Db ℕ) (eventId : ℕ) (existing : EventRow ℕ) (body : UpdateEventRequest ℕ),
    db.events.get eventId = some existing → db.Unused draws.newId →
    (∀ e, updateEvent paris crate format s draws db eventId body ≠ .error (.app e)) →
    Fine (updateEvent paris crate format s draws db eventId body) fun out =>
      Written db eventId existing (body.scope.getD .All) (askedPrivacy existing body)
        (askedAssignees s db eventId existing body) out ∧ Hides out.db := by
  intro hclaim
  have hend : ending (updateEvent europeParis dinnerCrate noFormat ⟨0, 2⟩ dinnerDraws dinnerDb 10 (leaves .This)) =
      some .policy := by decide +kernel
  have hrun : updateEvent europeParis dinnerCrate noFormat ⟨0, 2⟩ dinnerDraws dinnerDb 10 (leaves .This) =
      .error .policy := by
    cases hrun : updateEvent europeParis dinnerCrate noFormat ⟨0, 2⟩ dinnerDraws dinnerDb 10 (leaves .This) with
    | ok out =>
      rw [hrun] at hend
      exact absurd hend (by simp [ending])
    | error e =>
      rw [hrun] at hend
      exact congrArg Except.error (Option.some.inj hend)
  have hfine := hclaim europeParis dinnerCrate noFormat ⟨0, 2⟩ dinnerDraws dinnerDb 10 dinnerRow (leaves .This) rfl
    unused_dinner fun e he => absurd (hrun.symm.trans he) (by simp)
  rw [hrun] at hfine
  exact hfine

end Home.Agenda.Events
