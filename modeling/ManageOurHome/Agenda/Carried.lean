import ManageOurHome.Agenda.Occurrences
import ManageOurHome.Agenda.Split
import ManageOurHome.Agenda.Validate

/-! @src apps/api/src/agenda/recurrence.rs | layer:proof | family:recurrence

    The instants a series carries over, when it is cut at an occurrence and goes on from somewhere else. The series that
    goes on has each occurrence where its wall clock has moved to; the instants are moved by the time between the
    occurrence and the new start. The two agree where the clocks change by as much on both sides.

        walls     w₀ ───────── w            o ── + (newStart − o) ──▶ newStart
                  │ + Δ        │ + Δ        at ─ + (newStart − o) ──▶ ?
        moved     newStart ─── w + Δ        read with the offset there -/

namespace Home.Agenda

variable {paris : Paris} {walk : Walk} {startsAt newStart w w' w₀ : ℤ}

/-- The occurrence of an hour-bound series at a wall clock of its rule. -/
def occurrenceAt (paris : Paris) (startsAt w : ℤ) : ℤ := (seriesKind paris false startsAt).place paris (paris.resolve w)

/-- The occurrences of the series share one wall clock time. -/
def Walk.OneTime (walk : Walk) : Prop := ∃ time, ∀ i w, walk.wall i = some w → w % day = time

/-- Where the series that goes on from `newStart` has the occurrence of the wall clock `w`. -/
def movedTo (paris : Paris) (newStart w₀ w : ℤ) : ℤ := occurrenceAt paris newStart (w + (paris.local_ newStart - w₀))

theorem seriesKind_false : seriesKind paris false startsAt =
    if paris.isSecondPassOfARepeatedHour startsAt then .secondPass else .hourBound := rfl

/-- An occurrence is within three hours of its wall clock. -/
theorem occurrenceAt_bound (paris : Paris) (startsAt w : ℤ) :
    w - 2 * hour ≤ occurrenceAt paris startsAt w ∧ occurrenceAt paris startsAt w ≤ w + 3 * hour := by
  have hresolve := paris.resolve_bound w
  have hwidth := paris.width_eq
  have := hour_pos
  rw [occurrenceAt, seriesKind_false]
  split
  · obtain ⟨_, second, _, _, _, hle, _, hle', _, heq⟩ := exists_passes paris (paris.resolve w)
    rw [place_secondPass, heq]
    omega
  · rw [place_hourBound, id]
    omega

/-- An instant is where a series that starts on it reads its wall clock. -/
theorem occurrenceAt_local (paris : Paris) (t : ℤ) : occurrenceAt paris t (paris.local_ t) = t := by
  have hfirst := earliest_local_eq paris t
  have hsecond := latest_local_eq paris t
  have hlocal : paris.local_ (paris.firstPassOfARepeatedHour t) = paris.local_ t := local_firstPass paris t
  rw [occurrenceAt, Zone.resolve_of_earliest hfirst, seriesKind_false]
  split
  · rename_i hpass
    -- the second pass of the first one's wall clock
    have heq : paris.secondPassOfARepeatedHour (paris.firstPassOfARepeatedHour t) = paris.secondPassOfARepeatedHour t := by
      have h := latest_local_eq paris (paris.firstPassOfARepeatedHour t)
      rw [hlocal, hsecond] at h
      exact (Option.some.inj h).symm
    rw [place_secondPass, heq, Paris.secondPassOfARepeatedHour]
    rw [Paris.isSecondPassOfARepeatedHour] at hpass
    cases hpasses : paris.repeatedHourPasses t with
    | none => rfl
    | some passes =>
      rw [hpasses] at hpass
      exact (of_decide_eq_true hpass).symm
  · rename_i hpass
    rw [place_hourBound, id]
    rcases Zone.eq_earliest_or_latest hfirst hsecond with heq | heq
    · exact heq.symm
    · rw [Paris.isSecondPassOfARepeatedHour] at hpass
      rw [Paris.secondPassOfARepeatedHour] at heq
      rw [Paris.firstPassOfARepeatedHour]
      cases hpasses : paris.repeatedHourPasses t with
      | none => rfl
      | some passes =>
        rw [hpasses] at hpass heq
        exact absurd (decide_eq_true heq) hpass

/-- The series that goes on starts where it is asked to. -/
theorem movedTo_self (paris : Paris) (newStart w₀ : ℤ) : movedTo paris newStart w₀ w₀ = newStart := by
  have hwall : w₀ + (paris.local_ newStart - w₀) = paris.local_ newStart := by omega
  rw [movedTo, hwall, occurrenceAt_local]

end Home.Agenda
