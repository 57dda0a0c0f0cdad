import ManageOurHome.Agenda.CapSpent
import ManageOurHome.Agenda.CivilDays

/-! @src apps/api/src/agenda/events.rs, recurrence.rs | layer:proof | family:recurrence

    What a row renders in a window, with a rule and without. A row on its own is rendered when it meets the window; a
    series is unrolled, and renders its occurrences by their starts.

        from_                            to_
        ──┼───────────────────────────────┼──┼ a second
        ██████                                        alone: rendered    series: not promised
               ██████                                 both
                                           ██████     alone: not         hour-bound series: a second late -/

namespace Home.Agenda

variable {paris : Paris} {crate : Rrule} {kind : SeriesKind} {count : Option ℕ} {walk : Walk} {rrule : Text} {allDay : Bool}
  {startsAt endsAt from_ to_ after before o x : ℤ} {exdates : List ℤ} {span : OccurrenceSpan}

/-- An all-day walk is of midnights. -/
def Midnights (allDay : Bool) (walk : Walk) : Prop := allDay = true → ∀ i w, walk.wall i = some w → w % day = 0

theorem Midnights.place_eq (h : Midnights true walk) {j : ℕ} (hx : walk.instant paris j = some x) :
    SeriesKind.allDay.place paris x = x := by
  show paris.startOfDay (paris.date x) = x
  obtain ⟨w, -, rfl⟩ := Walk.instant_of_midnights (h rfl) hx
  rw [date_startOfDay]

end Home.Agenda
