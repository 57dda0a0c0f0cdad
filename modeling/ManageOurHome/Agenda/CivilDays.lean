import ManageOurHome.Agenda.Validate
import ManageOurHome.Agenda.WholeDays
import ManageOurHome.Error

/-! @src apps/api/src/agenda/recurrence.rs | layer:proof | family:recurrence

    All-day series, unrolled on civil days. A rule that steps by days, anchored on a midnight, walks midnights: its
    instants are the midnights of increasing days, and nothing of the walk is out of order. Each occurrence is then the
    whole days of the stored row, from its own first day.

        walk       00:00 ── 00:00 ──────── 00:00      wall clocks
        instants     d  <     d'    <        d''      one midnight each
        spans      [d, d + n)  [d', d' + n) … -/

namespace Home.Agenda

variable {paris : Paris} {crate : Rrule} {walk : Walk} {count : Option ℕ} {from_ to_ : ℤ}

/-- An instant of a walk of midnights. -/
theorem Walk.instant_of_midnights (h : ∀ i w, walk.wall i = some w → w % day = 0) {i : ℕ} {x : ℤ}
    (hx : walk.instant paris i = some x) : ∃ w, walk.wall i = some w ∧ x = paris.startOfDay (w / day) := by
  obtain ⟨w, hw, rfl⟩ := Walk.instant_eq_some.mp hx
  refine ⟨w, hw, ?_⟩
  have heq : w = w / day * day := (Int.ediv_mul_cancel_of_emod_eq_zero (h i w hw)).symm
  conv_lhs => rw [heq]
  exact resolve_midnight paris _

section

variable {rrule : Text} {startsAt endsAt : ℤ} {exdates : List ℤ} {spans : List OccurrenceSpan}

/-- The spans of an all-day series: whole days, in order, in the window. -/
structure CivilDays (paris : Paris) (spanDays from_ to_ : ℤ) (exdates : List ℤ) (spans : List OccurrenceSpan) : Prop where
  increasing : (spans.map fun span => paris.date span.1).Pairwise (· < ·)
  start : ∀ span ∈ spans, span.1 = paris.startOfDay (paris.date span.1)
  stop : ∀ span ∈ spans, span.2 = paris.startOfDay (paris.date span.1 + spanDays)
  within : ∀ span ∈ spans, from_ ≤ span.1 ∧ span.1 ≤ to_
  kept : ∀ span ∈ spans, ∀ x ∈ exdates, paris.date x ≠ paris.date span.1

/-- Excluding days leaves the others as they are. -/
theorem CivilDays.withoutExcluded {spanDays : ℤ} (h : CivilDays paris spanDays from_ to_ [] spans) :
    CivilDays paris spanDays from_ to_ exdates (withoutExcluded paris spans exdates true) := by
  have hsub : (Agenda.withoutExcluded paris spans exdates true).Sublist spans := by
    rw [Agenda.withoutExcluded]
    split
    · exact List.Sublist.refl _
    · exact List.filter_sublist
  constructor
  · exact h.increasing.sublist (hsub.map _)
  · exact fun span hspan => h.start span (hsub.subset hspan)
  · exact fun span hspan => h.stop span (hsub.subset hspan)
  · exact fun span hspan => h.within span (hsub.subset hspan)
  · intro span hspan x hx heq
    have hne : exdates.isEmpty = false := by
      cases exdates with
      | nil => exact absurd hx List.not_mem_nil
      | cons _ _ => rfl
    rw [Agenda.withoutExcluded, if_neg (by simp [hne]), if_pos rfl, List.mem_filter] at hspan
    exact absurd (List.mem_map.mpr ⟨x, hx, heq⟩) (of_decide_eq_true hspan.2)

end

/-! ### Every day, across 2026-03-29 -/

end Home.Agenda
