import Mathlib.Tactic.Linarith
import ManageOurHome.Lib.Zone
import ManageOurHome.Time

/-! @src apps/shared/src/validation/agenda.rs, apps/api/src/agenda/recurrence.rs | layer:model | family:clock

    Paris time. `chrono_tz` is not part of the repository: what the code relies on of Europe/Paris is
    the structure `Paris`, and `europeParis` is its table around 2026. A civil date is its number of days
    since the epoch, a wall clock the nanoseconds since the epoch's midnight on it.

        2026-03-29   01:59 CET │ 03:00 CEST     no 02:00-02:59
        2026-10-25   02:59 CEST│ 02:00 CET      02:00-02:59 twice -/

namespace Home.Agenda

theorem second_pos : 0 < second := by decide

theorem hour_pos : 0 < hour := by decide

theorem day_pos : 0 < day := by decide

/-- Europe/Paris: offsets within two hours of UTC, changes by an hour at most, forward by exactly
    one, and no midnight skipped. -/
structure Paris extends Zone where
  width_eq : width = 2 * hour
  shift_eq : shift = hour
  midnight : ∀ d, ∃ t, toZone.local_ t = d * day

variable (paris : Paris)

/-! ### `apps/shared` -/

/-- `dt.with_timezone(&Paris).naive_local()`. -/
def Paris.naiveLocal (dt : ℤ) : ℤ := paris.local_ dt

/-- The Paris civil date `dt` falls on. -/
def Paris.date (dt : ℤ) : ℤ := paris.local_ dt / day

/-- The midnight opening `date`. -/
def Paris.startOfDay (date : ℤ) : ℤ :=
  (paris.earliest (date * day) <|> paris.latest (date * day)).getD (date * day)

/-- The instants to store for an all-day event: the midnight opening its first day, and the midnight
    opening the day after its last one. -/
def Paris.normalizeAllDay (startsAt endsAt : ℤ) : ℤ × ℤ :=
  let startDay := paris.date startsAt
  let endDay := paris.date endsAt
  -- an end on a midnight names the first day past the event
  let exclusiveEndDay :=
    if paris.local_ endsAt % day = 0 ∧ startDay < endDay then endDay else endDay + 1
  let firstDayAfterStart := startDay + 1
  let exclusiveEndDay :=
    if exclusiveEndDay < firstDayAfterStart then firstDayAfterStart else exclusiveEndDay
  (paris.startOfDay startDay, paris.startOfDay exclusiveEndDay)

/-! ### `recurrence.rs` -/

/-- Whether `dt` falls in the hour right after one Paris skips. -/
def Paris.followsASkippedHour (dt : ℤ) : Bool := (paris.earliest (paris.local_ dt - hour)).isNone

/-- The two instants a wall clock names in the repeated hour. -/
def Paris.repeatedHourPasses (dt : ℤ) : Option (ℤ × ℤ) :=
  match paris.earliest (paris.local_ dt), paris.latest (paris.local_ dt) with
  | some first, some second => if first ≠ second then some (first, second) else none
  | _, _ => none

def Paris.isSecondPassOfARepeatedHour (dt : ℤ) : Bool :=
  (paris.repeatedHourPasses dt).any fun passes => dt = passes.2

def Paris.firstPassOfARepeatedHour (dt : ℤ) : ℤ :=
  ((paris.repeatedHourPasses dt).map Prod.fst).getD dt

def Paris.secondPassOfARepeatedHour (dt : ℤ) : ℤ :=
  ((paris.repeatedHourPasses dt).map Prod.snd).getD dt

/-- The anchor an all-day series unrolls from. -/
def Paris.allDayAnchor (startsAt : ℤ) : ℤ := paris.startOfDay (paris.date startsAt)

variable {paris}

/-! ### Midnights -/

theorem earliest_midnight (paris : Paris) (d : ℤ) :
    paris.earliest (d * day) = some (paris.startOfDay d) := by
  obtain ⟨t, ht⟩ := paris.midnight d
  obtain ⟨first, hfirst, _⟩ := paris.earliest_local t
  rw [ht] at hfirst
  rw [Paris.startOfDay, hfirst]
  rfl

theorem local_startOfDay (paris : Paris) (d : ℤ) : paris.local_ (paris.startOfDay d) = d * day :=
  (Zone.earliest_eq_some.mp (earliest_midnight paris d)).1

@[simp] theorem date_startOfDay (paris : Paris) (d : ℤ) : paris.date (paris.startOfDay d) = d := by
  rw [Paris.date, local_startOfDay, Int.mul_ediv_cancel _ (ne_of_gt day_pos)]

theorem resolve_midnight (paris : Paris) (d : ℤ) : paris.resolve (d * day) = paris.startOfDay d :=
  Zone.resolve_of_earliest (earliest_midnight paris d)

/-- A midnight is an hour or more before the next one. -/
theorem startOfDay_lt (paris : Paris) {d e : ℤ} (h : d < e) :
    paris.startOfDay d < paris.startOfDay e := by
  have hlt : d * day < e * day := by nlinarith [day_pos]
  rw [← resolve_midnight, ← resolve_midnight]
  rcases paris.resolve_order hlt with hlt | ⟨hskip, _⟩
  · exact hlt
  · exact absurd (hskip.symm.trans (earliest_midnight paris d)) (by simp)

theorem startOfDay_le_iff (paris : Paris) {d e : ℤ} :
    paris.startOfDay d ≤ paris.startOfDay e ↔ d ≤ e := by
  constructor
  · intro h
    by_contra hlt
    have := startOfDay_lt paris (not_le.mp hlt)
    omega
  · intro h
    rcases eq_or_lt_of_le h with rfl | hlt
    · exact le_refl _
    · exact (startOfDay_lt paris hlt).le

@[simp] theorem allDayAnchor_startOfDay (paris : Paris) (d : ℤ) :
    paris.allDayAnchor (paris.startOfDay d) = paris.startOfDay d := by
  rw [Paris.allDayAnchor, date_startOfDay]

theorem followsASkippedHour_eq (paris : Paris) (t : ℤ) :
    paris.followsASkippedHour t = paris.followsGap t := by
  rw [Paris.followsASkippedHour, Zone.followsGap, paris.shift_eq]

/-- The passes of the wall clock an instant reads. -/
theorem exists_passes (paris : Paris) (t : ℤ) : ∃ first second,
    paris.earliest (paris.local_ t) = some first ∧ paris.latest (paris.local_ t) = some second ∧
      first ≤ t ∧ t ≤ second ∧ t ≤ first + hour ∧ second ≤ t + hour ∧
      paris.firstPassOfARepeatedHour t = first ∧ paris.secondPassOfARepeatedHour t = second := by
  have hshift := paris.shift_eq
  obtain ⟨first, hfirst, hle, hle'⟩ := paris.earliest_local t
  obtain ⟨second, hsecond, hge, hge'⟩ := paris.latest_local t
  refine ⟨first, second, hfirst, hsecond, hle, hge, by omega, by omega, ?_, ?_⟩
  · rw [Paris.firstPassOfARepeatedHour, Paris.repeatedHourPasses, hfirst, hsecond]
    by_cases heq : first = second
    · simp only [heq, ne_eq, not_true_eq_false, if_false, Option.map_none, Option.getD_none]
      omega
    · simp only [ne_eq, heq, not_false_eq_true, if_true, Option.map_some, Option.getD_some]
  · rw [Paris.secondPassOfARepeatedHour, Paris.repeatedHourPasses, hfirst, hsecond]
    by_cases heq : first = second
    · simp only [heq, ne_eq, not_true_eq_false, if_false, Option.map_none, Option.getD_none]
      omega
    · simp only [ne_eq, heq, not_false_eq_true, if_true, Option.map_some, Option.getD_some]

theorem earliest_local_eq (paris : Paris) (t : ℤ) :
    paris.earliest (paris.local_ t) = some (paris.firstPassOfARepeatedHour t) := by
  obtain ⟨first, _, hfirst, _, _, _, _, _, heq, _⟩ := exists_passes paris t
  rw [hfirst, heq]

@[simp] theorem local_firstPass (paris : Paris) (t : ℤ) :
    paris.local_ (paris.firstPassOfARepeatedHour t) = paris.local_ t :=
  (Zone.earliest_eq_some.mp (earliest_local_eq paris t)).1

theorem latest_local_eq (paris : Paris) (t : ℤ) :
    paris.latest (paris.local_ t) = some (paris.secondPassOfARepeatedHour t) := by
  obtain ⟨_, second, _, hsecond, _, _, _, _, _, heq⟩ := exists_passes paris t
  rw [hsecond, heq]

@[simp] theorem local_secondPass (paris : Paris) (t : ℤ) :
    paris.local_ (paris.secondPassOfARepeatedHour t) = paris.local_ t :=
  (Zone.latest_eq_some.mp (latest_local_eq paris t)).1

/-- Europe/Paris around 2026: the last Sundays of March and October, at 01:00 UTC. -/
def parisTable : List (ℤ × ℤ) :=
  [(20177 * day + hour, 2 * hour), (20387 * day + hour, hour),
   (20541 * day + hour, 2 * hour), (20751 * day + hour, hour),
   (20905 * day + hour, 2 * hour), (21122 * day + hour, hour)]

def europeParis : Paris where
  toZone := Zone.ofTable (2 * hour) hour hour parisTable hour_pos (by decide)
  width_eq := rfl
  shift_eq := rfl
  midnight d := by
    have hok : Zone.TableOk (2 * hour) hour hour parisTable := by decide
    have hkeeps : Zone.TableKeepsMidnights day hour parisTable := by decide
    obtain ⟨t, _, ht⟩ := Zone.exists_midnight hour_pos day_pos d hok hkeeps
      (L := min (d * day - hour) 0) (fun c hc => by
        obtain rfl := Option.some.inj hc
        exact (min_le_right _ _).trans (by decide)) (by omega)
    exact ⟨t, ht⟩

end Home.Agenda
