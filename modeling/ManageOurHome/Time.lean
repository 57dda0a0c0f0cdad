import ManageOurHome.Lib.Gregorian
import Mathlib.Data.Int.Order.Basic

/-! @src apps/api/src (chrono, std::time) | layer:model | family:clock

    Instants and durations are integers counting nanoseconds, the resolution of `SystemTime` and of
    chrono's `DateTime<Utc>`; an instant counts them from the Unix epoch. -/

namespace Home

/-- A `chrono::NaiveDate`. -/
abbrev NaiveDate := Gregorian.Date (-262143) 262142

def second : ℤ := 1000000000

def minute : ℤ := 60 * second

def hour : ℤ := 60 * minute

def day : ℤ := 24 * hour

/-- How long from `earlier` to `later`, or zero if `later` is not later. -/
def since (later earlier : ℤ) : ℤ := max (later - earlier) 0

theorem since_of_le {later earlier : ℤ} (h : earlier ≤ later) :
    since later earlier = later - earlier := max_eq_left (by omega)

end Home
