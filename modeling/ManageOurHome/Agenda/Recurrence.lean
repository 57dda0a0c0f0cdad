import ManageOurHome.Agenda.Unroll

/-! @src apps/api/src/agenda/recurrence.rs, events.rs, reminders.rs | layer:model | family:recurrence

    How a stored series is read and checked. The `rrule` crate is not part of the repository:
    `Rrule` is what the code asks of it. It parses a rule's text, builds it on an anchor, and walks the
    wall clocks of what it built.

        text ──parse──▶ rule ──build, on an anchor──▶ walk ──walkOccurrences──▶ instants
                          │ all-day: `UNTIL` read on its day -/

namespace Home.Agenda

/-- A `str`. -/
abbrev Text := List Char

inductive Frequency where
  | Yearly | Monthly | Weekly | Daily | Hourly | Minutely | Secondly
  deriving DecidableEq

/-- A `DateTime<Tz>` of a rule's `UNTIL`: the instant, and whether it is written in UTC. -/
structure Until where
  instant : ℤ
  utc : Bool
  deriving DecidableEq

/-- The `rrule` crate. -/
structure Rrule where
  /-- `RRule<Unvalidated>`. -/
  Rule : Type
  Error : Type
  invalidParameterFormat : Text → Error
  parse : Text → Except Error Rule
  getFreq : Rule → Frequency
  getByHour : Rule → List ℕ
  getByMinute : Rule → List ℕ
  getBySecond : Rule → List ℕ
  getCount : Rule → Option ℕ
  count : ℕ → Rule → Rule
  getUntil : Rule → Option Until
  until_ : Until → Rule → Rule
  build : Rule → ℤ → Except Error Walk

/-- One expanded occurrence: the instant it starts, and the instant it ends. -/
abbrev OccurrenceSpan := ℤ × ℤ

variable (paris : Paris) (crate : Rrule)

def ascii (rrule : Text) : Except crate.Error Text :=
  if rrule.all fun c => c.val < 128 then .ok rrule else .error (crate.invalidParameterFormat rrule)

def parseRule (rrule : Text) : Except crate.Error crate.Rule :=
  ascii crate rrule >>= crate.parse

def buildParisRuleSet (rule : crate.Rule) (startsAt : ℤ) : Except crate.Error Walk :=
  crate.build rule (paris.firstPassOfARepeatedHour startsAt)

def parisRuleSet (rrule : Text) (startsAt : ℤ) : Except crate.Error Walk := do
  buildParisRuleSet paris crate (← parseRule crate rrule) startsAt

/-- `occurrences_in`: `COUNT` is lifted from the rule, and kept by the unroll. -/
def ruleOccurrencesIn (rule : crate.Rule) (anchor after before : ℤ) :
    Except crate.Error (List ℤ) := do
  let count := crate.getCount rule
  let rule := if count.isSome then crate.count u32Max rule else rule
  let walk ← buildParisRuleSet paris crate rule anchor
  return walkOccurrences paris count walk after before

/-- The occurrence starts of an hour-bound series inside `[from, to_]`, a second either side. -/
def expandOccurrences (rrule : Text) (startsAt from_ to_ : ℤ) : Except crate.Error (List ℤ) := do
  let rule ← parseRule crate rrule
  let after := from_ - second
  let before := to_ + second
  if !paris.isSecondPassOfARepeatedHour startsAt then
    ruleOccurrencesIn paris crate rule startsAt after before
  else
    -- anchored on the second pass: widened by the hour the occurrences are moved by
    let occurrences ← ruleOccurrencesIn paris crate rule startsAt (after - hour) (before + hour)
    return (occurrences.map paris.secondPassOfARepeatedHour).filter fun occurrence =>
      from_ ≤ occurrence ∧ occurrence ≤ to_

/-- The day an all-day series' `UNTIL` names, as the Paris midnight opening it. -/
def allDayUntilDay (until_ : ℤ) : ℤ := paris.startOfDay (until_ / day)

def allDayRule (rule : crate.Rule) : crate.Rule :=
  match crate.getUntil rule with
  | some u => if u.utc then crate.until_ ⟨allDayUntilDay paris u.instant, true⟩ rule else rule
  | none => rule

def allDayUnroll (rrule : Text) (startsAt : ℤ) : Except crate.Error (crate.Rule × ℤ) := do
  return (allDayRule paris crate (← parseRule crate rrule), paris.allDayAnchor startsAt)

def allDayRuleSet (rrule : Text) (startsAt : ℤ) : Except crate.Error Walk := do
  let (rule, anchor) ← allDayUnroll paris crate rrule startsAt
  buildParisRuleSet paris crate rule anchor

/-- The occurrences of an all-day series inside `[from, to_]`, as whole Paris days. -/
def expandAllDayOccurrences (rrule : Text) (startsAt endsAt from_ to_ : ℤ) :
    Except crate.Error (List OccurrenceSpan) := do
  let firstDay := paris.date startsAt
  let spanDays := max (paris.date endsAt - firstDay) 1
  let (rule, anchor) ← allDayUnroll paris crate rrule startsAt
  let occurrences ← ruleOccurrencesIn paris crate rule anchor from_ to_
  return occurrences.map fun occurrence =>
    let d := paris.date occurrence
    (paris.startOfDay d, paris.startOfDay (d + spanDays))

/-- `spans` without the occurrences a series excludes: by instant, or by Paris day when all-day. -/
def withoutExcluded (spans : List OccurrenceSpan) (exdates : List ℤ) (allDay : Bool) :
    List OccurrenceSpan :=
  if exdates.isEmpty then spans
  else if allDay then
    let days := exdates.map paris.date
    spans.filter fun span => paris.date span.1 ∉ days
  else spans.filter fun span => span.1 ∉ exdates

/-- The occurrences of a stored series inside `[from, to_]`, the one unroll every reader goes
    through. -/
def expandSeries (rrule : Text) (allDay : Bool) (startsAt endsAt from_ to_ : ℤ) (exdates : List ℤ) :
    Except crate.Error (List OccurrenceSpan) := do
  let spans ←
    if allDay then expandAllDayOccurrences paris crate rrule startsAt endsAt from_ to_
    else do
      let duration := endsAt - startsAt
      let occurrences ← expandOccurrences paris crate rrule startsAt from_ to_
      pure (occurrences.map fun s => (s, s + duration))
  return withoutExcluded paris spans exdates allDay

/-- Whether a rule steps by whole days and names no time of day. -/
def stepsByDays (rule : crate.Rule) : Bool :=
  !(crate.getFreq rule matches .Hourly | .Minutely | .Secondly) &&
    (crate.getByHour rule).isEmpty && (crate.getByMinute rule).isEmpty &&
    (crate.getBySecond rule).isEmpty

/-- A rule is one value: no line break, no `:`. -/
def oneValue (rrule : Text) : Bool := !rrule.any fun c => c ∈ ['\r', '\n', ':']

/-- The check made on write. -/
def validate (rrule : Text) (startsAt : ℤ) (allDay : Bool) : Except crate.Error Unit := do
  if !oneValue rrule then throw (crate.invalidParameterFormat rrule)
  if allDay then
    if !stepsByDays crate (← parseRule crate rrule) then throw (crate.invalidParameterFormat rrule)
    let _ ← allDayRuleSet paris crate rrule startsAt
  else
    let _ ← parisRuleSet paris crate rrule startsAt
  return ()

/-! ### `events.rs`, `reminders.rs` -/

/-- The bounds to store for an event. -/
def normalizedBounds (allDay : Bool) (startsAt endsAt : ℤ) : ℤ × ℤ :=
  if allDay then paris.normalizeAllDay startsAt endsAt else (startsAt, endsAt)

/-- The starts a reminder is scheduled on inside `[from, to_]`. -/
def reminderOccurrences (rrule : Option Text) (allDay : Bool) (startsAt endsAt from_ to_ : ℤ)
    (exdates : List ℤ) : Except crate.Error (List ℤ) :=
  match rrule with
  | some r => do
    let spans ← expandSeries paris crate r allDay startsAt endsAt from_ to_ exdates
    return spans.map Prod.fst
  | none => .ok [startsAt]

end Home.Agenda
