import ManageOurHome.Agenda.UpdateEvent

/-! @src apps/api/src/agenda/events.rs, apps/api/migrations/0044_private_events.sql | layer:proof |
    family:private events

    The rule decided before writing, and the policies that check it again at every statement. A statement on what hangs
    off an event leaves the events and their assignees as they are; the others are told apart by who sees the event when
    each starts. In place, the author who leaves keeps their old row until the end; in a split the new event has none of
    theirs, and the `UPDATE` that makes it private is refused.

        in place   old ∪ new ─▶ UPDATE checked ─▶ new
        split      new       ─▶ UPDATE checked            the author is not in new: policy error -/

namespace Home.Agenda.Events

open FiniteMap Groups

/-! ### Requests that meet no policy error -/

section

variable {α β : Type}

/-- No statement of `x` is refused by a policy or misses its row, and what it returns is `Q`. -/
def Fine (x : Except Failure α) (Q : α → Prop) : Prop :=
  match x with
  | .ok a => Q a
  | .error (.app _) => True
  | .error .scheduling => True
  | .error .policy => False
  | .error .rowNotFound => False

theorem Fine.bind {x : Except Failure α} {f : α → Except Failure β} {P : α → Prop} {Q : β → Prop} (hx : Fine x P)
    (hf : ∀ a, P a → Fine (f a) Q) : Fine (x >>= f) Q := by
  cases x with
  | ok a => exact hf a hx
  | error e =>
    cases e with
    | app e => exact trivial
    | scheduling => exact trivial
    | policy => exact hx.elim
    | rowNotFound => exact hx.elim

theorem Fine.mono {x : Except Failure α} {P Q : α → Prop} (hx : Fine x P) (h : ∀ a, P a → Q a) : Fine x Q := by
  cases x with
  | ok a => exact h a hx
  | error e =>
    cases e with
    | app e => exact trivial
    | scheduling => exact trivial
    | policy => exact hx.elim
    | rowNotFound => exact hx.elim

theorem fine_refuse {x : Except AppError α} {Q : α → Prop} (h : ∀ a, x = .ok a → Q a) : Fine (refuse x) Q := by
  cases x with
  | ok a => exact h a rfl
  | error e => exact trivial

/-- RUN: what each element of a list keeps, a loop over it keeps. -/
theorem fine_foldlM {P : α → Prop} {f : α → β → Except Failure α} {xs : List β} {a : α} (ha : P a)
    (hf : ∀ a, P a → ∀ x ∈ xs, Fine (f a x) P) : Fine (xs.foldlM f a) P := by
  induction xs generalizing a with
  | nil => exact ha
  | cons x xs ih =>
    rw [List.foldlM_cons]
    refine (hf a ha x List.mem_cons_self).bind fun a' ha' => ?_
    exact ih ha' fun b hb y hy => hf b hb y (List.mem_cons_of_mem x hy)

end

variable {Uuid : Type} {s : Session Uuid} {db db' db'' : Db Uuid} {id e : Uuid} {row : EventRow Uuid}

/-! ### What the policies read -/

/-- The events and their assignees are the same. -/
structure SameEvents (db db' : Db Uuid) : Prop where
  events : db'.events = db.events
  assignees : db'.assignees = db.assignees

theorem SameEvents.refl (db : Db Uuid) : SameEvents db db := ⟨rfl, rfl⟩

theorem SameEvents.trans (h : SameEvents db db') (h' : SameEvents db' db'') : SameEvents db db'' :=
  ⟨h'.events.trans h.events, h'.assignees.trans h.assignees⟩

variable [DecidableEq Uuid]

theorem SameEvents.selectEvent_eq (h : SameEvents db db') (e : Uuid) : selectEvent s db' e = selectEvent s db e := by
  rw [selectEvent, selectEvent, h.events]
  unfold eventsIsolation eventIsAssignedToCurrentUser
  rw [h.assignees]

theorem SameEvents.seesEvent_eq (h : SameEvents db db') (e : Uuid) : seesEvent s db' e = seesEvent s db e := by
  rw [seesEvent, h.selectEvent_eq, seesEvent]

theorem selectEvent_eq_some : selectEvent s db e = some row ↔
    db.events.get e = some row ∧ eventsIsolation s db e row = true := Option.filter_eq_some_iff

theorem seesEvent_of_select (h : selectEvent s db e = some row) : seesEvent s db e = true := by
  rw [seesEvent, h]
  rfl

/-- Whom a policy lets through, once the family is the session's. -/
theorem eventsIsolation_iff : eventsIsolation s db e row = true ↔
    row.groupId = s.groupId ∧ (row.isPrivate = false ∨ row.createdBy = s.userId ∨ (e, s.userId) ∈ db.assignees) := by
  simp [eventsIsolation, eventIsAssignedToCurrentUser]

/-- The family, the creator and the privacy of an event: what its policy reads of the row. -/
def EventRow.audience (row : EventRow Uuid) : Uuid × Uuid × Bool := (row.groupId, row.createdBy, row.isPrivate)

theorem eventsIsolation_congr {row row' : EventRow Uuid} (h : row'.audience = row.audience) :
    eventsIsolation s db e row' = eventsIsolation s db e row := by
  obtain ⟨hgroup, hrest⟩ := Prod.mk.inj h
  obtain ⟨hcreator, hprivate⟩ := Prod.mk.inj hrest
  rw [eventsIsolation, hgroup, hcreator, hprivate, eventsIsolation]

/-- The assignees of an event, whoever looks. -/
def assigneesOf (db : Db Uuid) (id : Uuid) : Finset Uuid := (db.assignees.filter fun p => p.1 = id).image Prod.snd

@[simp] theorem mem_assigneesOf {u : Uuid} : u ∈ assigneesOf db id ↔ (id, u) ∈ db.assignees := by
  simp [assigneesOf]

theorem assigneesForEvent_of_select (h : selectEvent s db id = some row) :
    assigneesForEvent s db id = assigneesOf db id := by
  rw [assigneesForEvent, assigneesOf]
  refine congrArg (Finset.image Prod.snd) (Finset.filter_congr fun p _ => and_iff_left_of_imp ?_)
  rintro rfl
  exact seesEvent_of_select h

theorem isParticipant_iff {user createdBy : Uuid} {users : Finset Uuid} :
    isParticipant user createdBy users = true ↔ createdBy = user ∨ user ∈ users := by
  rw [isParticipant, Bool.or_eq_true, decide_eq_true_eq, decide_eq_true_eq, eq_comm]

/-! ### What hangs off an event -/

theorem fine_insertChild {f : List (Child Uuid) → List (Child Uuid)} {child : Child Uuid}
    (h : seesEvent s db child.event = true) : Fine (insertChild s db f child) (SameEvents db) := by
  rw [insertChild, if_pos h]
  exact ⟨rfl, rfl⟩

theorem sameEvents_deleteChildren (s : Session Uuid) (db : Db Uuid) (p : Child Uuid → Bool) :
    SameEvents db (deleteChildren s db p) := ⟨rfl, rfl⟩

theorem fine_setOccurrenceCompletion {draws : Draws Uuid} {occurrenceAt : ℤ} {completed : Bool} {actor : Uuid}
    (h : seesEvent s db e = true) :
    Fine (setOccurrenceCompletion s draws db e occurrenceAt completed actor) (SameEvents db) := by
  rw [setOccurrenceCompletion]
  split
  · exact fine_insertChild h
  · exact sameEvents_deleteChildren _ _ _

/-- A loop of insertions on one event seen. -/
theorem fine_foldlM_sees {β : Type} {f : Db Uuid → β → Except Failure (Db Uuid)} {xs : List β}
    (h : seesEvent s db e = true)
    (hf : ∀ db', seesEvent s db' e = true → ∀ x ∈ xs, Fine (f db' x) (SameEvents db')) :
    Fine (xs.foldlM f db) (SameEvents db) := by
  refine fine_foldlM (SameEvents.refl db) fun db' hsame x hx => ?_
  have hsees : seesEvent s db' e = true := (hsame.seesEvent_eq e).trans h
  exact (hf db' hsees x hx).mono fun _ => hsame.trans

theorem fine_moveCompletions {paris : Paris} {seriesId : Uuid} {series to_ : EventRow Uuid} {occurrence : ℤ}
    (h : seesEvent s db e = true) :
    Fine (moveCompletions paris s db seriesId series e to_ occurrence) (SameEvents db) := by
  rw [moveCompletions]
  split
  · exact SameEvents.refl db
  · have hdeleted := sameEvents_deleteChildren s db (isCompletion seriesId (decide <| occurrence ≤ ·))
    refine (fine_foldlM_sees ((hdeleted.seesEvent_eq e).trans h) ?_).mono fun _ => hdeleted.trans
    intro db' hsees x _
    cases x with
    | completion _ o completedAt completedBy =>
      simp only
      split
      · exact SameEvents.refl db'
      · exact fine_insertChild hsees
    | reminder => exact SameEvents.refl db'
    | notification => exact SameEvents.refl db'
    | attachment => exact SameEvents.refl db'

theorem fine_refillNotifications {paris : Paris} {crate : Rrule} {draws : Draws Uuid} {reminder : Uuid}
    {offsetMinutes : ℤ} (h : seesEvent s db e = true) :
    Fine (refillNotifications paris crate s draws db reminder e row offsetMinutes) (SameEvents db) := by
  rw [refillNotifications]
  split
  · exact trivial
  · exact fine_foldlM_sees h fun db' hsees o _ => fine_insertChild hsees

theorem fine_copyReminders {paris : Paris} {crate : Rrule} {draws : Draws Uuid} {from_ : Uuid}
    (h : seesEvent s db e = true) : Fine (copyReminders paris crate s draws db from_ e row) (SameEvents db) := by
  refine Fine.bind (fine_foldlM_sees h fun db' hsees copy _ => fine_insertChild hsees) fun db' hsame => ?_
  have hsees : seesEvent s db' e = true := (hsame.seesEvent_eq e).trans h
  exact (fine_foldlM_sees hsees fun db' hsees copy _ => fine_refillNotifications hsees).mono fun _ => hsame.trans

/-! ### The events and their assignees -/

theorem updateEventRow_of_select {f : EventRow Uuid → EventRow Uuid} (h : selectEvent s db id = some row) :
    updateEventRow s db id f =
      if eventsIsolation s db id (f row) then
        .ok ({ db with events := db.events.set id (some (f row)) }, some (f row))
      else .error .policy := by
  rw [updateEventRow, h]

/-- A row seen is updated, as long as the update leaves its audience. -/
theorem updateEventRow_of_audience (f : EventRow Uuid → EventRow Uuid) (h : selectEvent s db id = some row)
    (hf : (f row).audience = row.audience) :
    updateEventRow s db id f = .ok ({ db with events := db.events.set id (some (f row)) }, some (f row)) := by
  rw [updateEventRow_of_select h, eventsIsolation_congr hf, if_pos (selectEvent_eq_some.mp h).2]

theorem upsertAssignees_of_sees {users : Finset Uuid} (h : seesEvent s db id = true) :
    upsertAssignees s db id users = .ok { db with assignees := db.assignees ∪ users.image (Prod.mk id) } := by
  rw [upsertAssignees, if_pos (.inr h)]

theorem mem_upserted {users : Finset Uuid} {u : Uuid} :
    (e, u) ∈ db.assignees ∪ users.image (Prod.mk id) ↔ (e, u) ∈ db.assignees ∨ e = id ∧ u ∈ users := by
  simp [eq_comm, and_comm]

/-- A row seen stays seen as assignees are added. -/
theorem eventsIsolation_mono (h : eventsIsolation s db e row = true) (hsub : db.assignees ⊆ db'.assignees) :
    eventsIsolation s db' e row = true := by
  rw [eventsIsolation_iff] at h ⊢
  exact ⟨h.1, h.2.imp_right (Or.imp_right fun hmem => hsub hmem)⟩

end Home.Agenda.Events
