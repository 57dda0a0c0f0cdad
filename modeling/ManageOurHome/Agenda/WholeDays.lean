import ManageOurHome.Agenda.Occurrences

/-! @src apps/shared/src/validation/agenda.rs | layer:proof | family:clock

    The whole days an all-day event is stored as. Where the midnight opening a day names one instant, the instants from
    it on are those of that day and the later ones: the days an interval between two midnights covers are the days
    between them, whatever the clocks did in between.

        s       ┊ 08:00 ────┊───────┊── 09:00  e         every day touched
        S ──────┊───────────┊───────┊───────── E         and whole -/

namespace Home.Agenda

variable {paris : Paris} {s e d t : ℤ}

/-- The midnight opening `d` names one instant. -/
def Paris.MidnightOnce (paris : Paris) (d : ℤ) : Prop := ∀ t, paris.local_ t = d * day → t = paris.startOfDay d

/-- The instants from the midnight of a day on are those of that day and the later ones. -/
theorem startOfDay_le_iff_date (h : paris.MidnightOnce d) : paris.startOfDay d ≤ t ↔ d ≤ paris.date t := by
  constructor
  · intro hle
    by_contra hlt
    obtain ⟨last, hlast, hle', -⟩ := paris.latest_local t
    obtain ⟨last', hlast', -⟩ := paris.latest_local (paris.startOfDay d)
    rw [local_startOfDay] at hlast'
    have heq : last' = paris.startOfDay d := h last' (Zone.latest_eq_some.mp hlast').1
    have hwall : paris.local_ t < d * day := by
      have := Int.lt_ediv_add_one_mul_self (paris.local_ t) day_pos
      have hday : paris.date t + 1 ≤ d := by omega
      have := Int.mul_le_mul_of_nonneg_right hday day_pos.le
      rw [Paris.date] at this
      omega
    have := paris.latest_order hwall hlast hlast'
    omega
  · intro hle
    exact ((startOfDay_le_iff paris).mpr hle).trans (startOfDay_date_le paris t)

theorem lt_startOfDay_iff_date (h : paris.MidnightOnce d) : t < paris.startOfDay d ↔ paris.date t < d := by
  have := startOfDay_le_iff_date h (t := t)
  omega

theorem local_startOfDay_mod (paris : Paris) (d : ℤ) : paris.local_ (paris.startOfDay d) % day = 0 := by
  rw [local_startOfDay]
  exact Int.mul_emod_left d day

/-! ### The day past the last one -/

/-- The first day an all-day event no longer covers. -/
def Paris.dayAfter (paris : Paris) (s e : ℤ) : ℤ :=
  if paris.local_ e % day = 0 ∧ paris.date s < paris.date e then paris.date e
  else max (paris.date e + 1) (paris.date s + 1)

theorem normalizeAllDay_eq (paris : Paris) (s e : ℤ) :
    paris.normalizeAllDay s e = (paris.startOfDay (paris.date s), paris.startOfDay (paris.dayAfter s e)) := by
  have hday : paris.dayAfter s e =
      if (if paris.local_ e % day = 0 ∧ paris.date s < paris.date e then paris.date e else paris.date e + 1) <
          paris.date s + 1 then paris.date s + 1
      else if paris.local_ e % day = 0 ∧ paris.date s < paris.date e then paris.date e else paris.date e + 1 := by
    rw [Paris.dayAfter]
    split_ifs <;> omega
  rw [hday]
  rfl

theorem date_lt_dayAfter (paris : Paris) (s e : ℤ) : paris.date s < paris.dayAfter s e := by
  rw [Paris.dayAfter]
  split
  · rename_i h
    exact h.2
  · omega

/-- Two midnights, the second one later, stay where they are. -/
theorem dayAfter_startOfDay {x : ℤ} (h : d < x) : paris.dayAfter (paris.startOfDay d) (paris.startOfDay x) = x := by
  rw [Paris.dayAfter, date_startOfDay, date_startOfDay, if_pos ⟨local_startOfDay_mod paris x, h⟩]

theorem normalizeAllDay_startOfDay {x : ℤ} (h : d < x) :
    paris.normalizeAllDay (paris.startOfDay d) (paris.startOfDay x) = (paris.startOfDay d, paris.startOfDay x) := by
  rw [normalizeAllDay_eq, dayAfter_startOfDay h, date_startOfDay]

/-- What is normalized stays as it is. -/
theorem normalizeAllDay_normalizeAllDay (paris : Paris) (s e : ℤ) :
    paris.normalizeAllDay (paris.normalizeAllDay s e).1 (paris.normalizeAllDay s e).2 = paris.normalizeAllDay s e := by
  rw [normalizeAllDay_eq paris s e]
  simp only [normalizeAllDay_startOfDay (date_lt_dayAfter paris s e)]

section

variable (hs : paris.MidnightOnce (paris.date s)) (hle : s ≤ e)

include hs hle

end

/-! ### The cover -/

/-- `[S, E)` is the whole Paris days that `[s, e)` touches, the day of `s` included. -/
structure Covers (paris : Paris) (s e S E : ℤ) : Prop where
  start : paris.local_ S % day = 0
  stop : paris.local_ E % day = 0
  le : S ≤ s
  lt : S < E
  ge : e ≤ E
  days : ∀ c, (∃ t, S ≤ t ∧ t < E ∧ paris.date t = c) ↔ (∃ t, s ≤ t ∧ t < e ∧ paris.date t = c) ∨ c = paris.date s
  fixed : paris.normalizeAllDay S E = (S, E)

end Home.Agenda
