import ManageOurHome.Agenda.Recurrence
import ManageOurHome.Text

/-! @src apps/api/src/agenda/recurrence.rs | layer:model | family:recurrence

    Where an occurrence sits in its series, and the two rules a series cut there goes on with. A rule's text is a list
    of `NAME=value` parts; chrono's formats are taken as parameters.

        FREQ=DAILY;COUNT=5 ──truncatedBefore──▶ FREQ=DAILY;UNTIL=…
                           └─continuedAfter, 3──▶ FREQ=DAILY;COUNT=2 -/

namespace Home.Agenda

/-- Where one occurrence sits in its series. -/
structure OccurrenceInSeries where
  span : OccurrenceSpan
  /-- What `COUNT` has spent by then. -/
  producedBefore : ℕ
  deriving DecidableEq

/-- What chrono writes: a civil date as `%Y%m%d`, an instant as `%Y%m%dT%H%M%SZ`. -/
structure Format where
  date : ℤ → Text
  instant : ℤ → Text

variable (paris : Paris) (crate : Rrule) (format : Format)

/-- The occurrence of a stored series that `at_` names, if the series lists one there. -/
def locateOccurrence (rrule : Text) (allDay : Bool) (startsAt endsAt : ℤ) (exdates : List ℤ) (at_ : ℤ) :
    Except crate.Error (Option OccurrenceInSeries) := do
  let spans ← expandSeries paris crate rrule allDay startsAt endsAt (startsAt - day) (at_ + day) []
  let isAt := fun start : ℤ => if allDay then paris.date start = paris.date at_ else start = at_
  return (spans.findIdx? fun span => decide (isAt span.1)).bind fun index =>
    (spans[index]?).bind fun span =>
      if (withoutExcluded paris [span] exdates allDay).isEmpty then none
      else some ⟨span, min index u32Max⟩

/-- The `NAME=value` parts of a rule, empty ones dropped. -/
def ruleParts (rrule : Text) : List Text :=
  (rrule.splitOn ';').filter fun part => !(trim part).isEmpty

/-- Whether `part` is the rule part `name`, whatever its case. -/
def isPart (part name : Text) : Bool :=
  part.contains '=' && asciiLowercase (trim (part.takeWhile (· ≠ '='))) = asciiLowercase name

/-- A rule cut so that the series ends right before `occurrence`. -/
def truncatedBefore (rrule : Text) (allDay : Bool) (occurrence : ℤ) : Except crate.Error Text := do
  let _ ← parseRule crate rrule
  let until_ :=
    if allDay then format.date (paris.date occurrence - 1) ++ "T235959Z".toList
    else format.instant (paris.firstPassOfARepeatedHour occurrence - second)
  let parts := (ruleParts rrule).filter fun part => !isPart part "COUNT".toList && !isPart part "UNTIL".toList
  return List.intercalate [';'] (parts ++ ["UNTIL=".toList ++ until_])

/-- A rule for the series that carries on from an occurrence: what `COUNT` had left. -/
def continuedAfter (rrule : Text) (producedBefore : ℕ) : Except crate.Error Text := do
  match crate.getCount (← parseRule crate rrule) with
  | none => return rrule
  | some count =>
    let left := "COUNT=".toList ++ (Nat.repr (count - producedBefore)).toList
    return List.intercalate [';']
      ((ruleParts rrule).map fun part => if isPart part "COUNT".toList then left else part)

/-- The instants that the series carrying on from `occurrence` takes over when it starts at `newStart`. -/
def carriedOver (instants : List ℤ) (allDay : Bool) (occurrence newStart : ℤ) : List ℤ :=
  if allDay then
    let from_ := paris.date occurrence
    let days := paris.date newStart - from_
    ((instants.map paris.date).filter (from_ ≤ ·)).map fun d => paris.startOfDay (d + days)
  else
    let moved := newStart - occurrence
    (instants.filter (occurrence ≤ ·)).map (· + moved)

end Home.Agenda
