import ManageOurHome.Agenda.Recurrence

/-! @src apps/api/src/agenda/recurrence.rs, events.rs, reminders.rs | layer:proof | family:recurrence

    What is accepted on write is what every reader can unroll. Each reader and the check on write come
    down to one construction: the rule parsed, and built on the anchor of its kind of series. The check
    is made on the start sent, the readers work on the start stored: an all-day series has one anchor
    for both, the midnight of its first day.

        validate ─────────────┐
        expandSeries ─────────┼──▶ seriesRuleSet: parse, build on the anchor
        rowSpans, reminders ──┘ -/

namespace Home.Agenda

/-! ### What succeeds -/

@[simp] theorem isOk_ok {ε α : Type} (v : α) : (Except.ok v : Except ε α).isOk = true := rfl

@[simp] theorem isOk_error {ε α : Type} (e : ε) : (Except.error e : Except ε α).isOk = false := rfl

@[simp] theorem isOk_pure {ε α : Type} (v : α) : (pure v : Except ε α).isOk = true := rfl

/-- A computation followed by one that cannot fail. -/
theorem isOk_bind_total {ε α β : Type} (x : Except ε α) (f : α → Except ε β)
    (hf : ∀ v, (f v).isOk = true) : (x >>= f).isOk = x.isOk := by
  cases x with
  | error e => rfl
  | ok v => exact hf v

variable {paris : Paris} {crate : Rrule}

/-- The rule set a series unrolls from. -/
def seriesRuleSet (paris : Paris) (crate : Rrule) (rrule : Text) (allDay : Bool) (startsAt : ℤ) :
    Except crate.Error Walk :=
  if allDay then allDayRuleSet paris crate rrule startsAt else parisRuleSet paris crate rrule startsAt

/-! ### The readers -/

/-- The rule parses, and steps by days. -/
def StepsByDays (crate : Rrule) (rrule : Text) : Prop :=
  ∃ rule, parseRule crate rrule = .ok rule ∧ stepsByDays crate rule

/-- STEP: what the check on write accepts. -/
theorem validate_isOk (rrule : Text) (startsAt : ℤ) (allDay : Bool) :
    (validate paris crate rrule startsAt allDay).isOk ↔
      oneValue rrule ∧ (allDay → StepsByDays crate rrule) ∧
        (seriesRuleSet paris crate rrule allDay startsAt).isOk := by
  rw [validate, seriesRuleSet]
  by_cases hone : oneValue rrule = true
  swap
  · simp [hone, throw, throwThe, MonadExceptOf.throw, bind, Except.bind]
  simp only [hone, Bool.not_true, Bool.false_eq_true, if_false, true_and]
  cases allDay with
  | false =>
    simp only [Bool.false_eq_true, if_false, false_implies, true_and]
    show (parisRuleSet paris crate rrule startsAt >>= _).isOk = true ↔ _
    rw [isOk_bind_total _ _ fun _ => rfl]
  | true =>
    simp only [if_true, true_implies]
    cases hparse : parseRule crate rrule with
    | error e =>
      have hnot : ¬StepsByDays crate rrule := by
        rintro ⟨rule, hrule, _⟩
        exact absurd (hparse.symm.trans hrule) (by simp)
      simp [hnot, bind, Except.bind]
    | ok rule =>
      have hsteps : StepsByDays crate rrule ↔ stepsByDays crate rule = true := by
        constructor
        · rintro ⟨rule', hrule, h⟩
          obtain rfl := Except.ok.inj (hparse.symm.trans hrule)
          exact h
        · exact fun h => ⟨rule, hparse, h⟩
      rw [hsteps]
      by_cases hdays : stepsByDays crate rule = true
      · simp only [bind, Except.bind, hdays, Bool.not_true, Bool.false_eq_true, if_false, true_and]
        exact iff_of_eq (congrArg (· = true) (isOk_bind_total _ _ fun _ => rfl))
      · simp [hdays, throw, throwThe, MonadExceptOf.throw, bind, Except.bind]

/-- A rule of `rrule` that steps one day at a time, with or without a `COUNT`. -/
structure EveryDay where
  count : Option ℕ
  deriving DecidableEq

/-- The wall clocks of such a rule, from `w`. -/
def everyDay (w : ℤ) : Walk where
  wall i := some (w + i * day)
  ended i h := absurd h (by simp)
  increasing i w w' h h' := by
    obtain rfl := Option.some.inj h
    obtain rfl := Option.some.inj h'
    have := day_pos
    push_cast
    linarith

/-- `rrule` on `FREQ=DAILY`. -/
def everyDayCrate (paris : Paris) : Rrule where
  Rule := EveryDay
  Error := Unit
  invalidParameterFormat _ := ()
  parse text := if text = "FREQ=DAILY".toList then .ok ⟨none⟩ else .error ()
  getFreq _ := .Daily
  getByHour _ := []
  getByMinute _ := []
  getBySecond _ := []
  getCount rule := rule.count
  count n _ := ⟨some n⟩
  getUntil _ := none
  until_ _ rule := rule
  build rule anchor :=
    let walk := everyDay (paris.local_ anchor)
    .ok (rule.count.elim walk walk.take)

end Home.Agenda
