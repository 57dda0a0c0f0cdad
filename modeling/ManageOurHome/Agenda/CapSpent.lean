import Mathlib.Data.Finset.Card
import Mathlib.Order.Interval.Finset.Nat
import ManageOurHome.Agenda.Validate
import ManageOurHome.Agenda.Carried

/-! @src apps/api/src/agenda/recurrence.rs | layer:proof | family:recurrence

    What the cap is spent on. The unroll spends it on the instants of the widened window, the ones ahead of an
    occurrence included that the filter then drops; and it stops at the first instant past that window.

            after        from_                     to_        before
        ──────┼────────────┼─────────── o ──────────┼────────────┼──
              └─ dropped ──┘             margin: a second, and an hour on the second pass -/

namespace Home.Agenda

variable {paris : Paris} {crate : Rrule} {kind : SeriesKind} {count : Option ℕ} {walk : Walk} {rrule : Text}
  {startsAt from_ to_ o x : ℤ}

/-- `o` is an occurrence of the series inside `[from_, to_]`. -/
def Inside (paris : Paris) (kind : SeriesKind) (count : Option ℕ) (walk : Walk) (from_ to_ o : ℤ) : Prop :=
  from_ ≤ o ∧ o ≤ to_ ∧ ∃ j x, walk.Counts paris count j x ∧ kind.place paris x = o

/-- `o` is one of the `MAX_OCCURRENCES` earliest inside `[from_, to_]`. -/
def Earliest (paris : Paris) (kind : SeriesKind) (count : Option ℕ) (walk : Walk) (from_ to_ o : ℤ) : Prop :=
  Inside paris kind count walk from_ to_ o ∧
    ∀ s : Finset ℤ, (∀ o' ∈ s, Inside paris kind count walk from_ to_ o' ∧ o' < o) → s.card < MAX_OCCURRENCES

/-- The unroll gets to the `j`-th instant: ahead of it, fewer than `MAX_OCCURRENCES` are in the widened window, and none
    is past it. -/
def Walk.Gets (paris : Paris) (kind : SeriesKind) (walk : Walk) (from_ to_ : ℤ) (j : ℕ) : Prop :=
  ((walk.distinct paris j).filter (inWindow (from_ - kind.margin) (to_ + kind.margin))).length < MAX_OCCURRENCES ∧
    ∀ i < j, ∀ y, walk.instant paris i = some y → y ≤ to_ + kind.margin

/-! ### One instant an occurrence -/

theorem firstPass_instant {i : ℕ} (hx : walk.instant paris i = some x) : paris.earliest (paris.local_ x) = some x := by
  obtain ⟨w, -, rfl⟩ := Walk.instant_eq_some.mp hx
  exact paris.earliest_local_resolve w

/-- Two instants of a walk make two occurrences, when hour-bound. -/
theorem instant_of_place (hkind : kind ≠ .allDay) {i j : ℕ} {y : ℤ} (hx : walk.instant paris i = some x)
    (hy : walk.instant paris j = some y) (heq : kind.place paris x = kind.place paris y) : x = y := by
  cases kind with
  | hourBound => exact heq
  | secondPass =>
    have hlocal : paris.local_ x = paris.local_ y := by
      rw [place_secondPass] at heq
      rw [← local_secondPass paris x, heq, local_secondPass]
    have hfirst := firstPass_instant hx
    rw [hlocal, firstPass_instant hy] at hfirst
    exact (Option.some.inj hfirst).symm
  | allDay => exact absurd rfl hkind

/-- STEP: an occurrence inside is listed exactly if the unroll gets to its instant. -/
theorem place_mem_startsOn_iff (hkind : kind ≠ .allDay) {j : ℕ} (hx : walk.Counts paris count j x)
    (hfrom : from_ ≤ kind.place paris x) (hto : kind.place paris x ≤ to_) :
    kind.place paris x ∈ startsOn paris kind count walk from_ to_ ↔ walk.Gets paris kind from_ to_ j := by
  obtain ⟨hj, hnew, hcount⟩ := hx
  have hmargin := margin_bound kind
  have hge : x ≤ kind.place paris x := le_place hkind x
  have hle : kind.place paris x ≤ x + kind.margin := place_le kind x
  rw [mem_startsOn]
  constructor
  · rintro ⟨y, ⟨i, ⟨hi, hnew', -, hcap, -⟩, hahead⟩, hplace, -⟩
    obtain rfl := instant_of_place hkind hi hj hplace
    -- an instant is new once
    obtain rfl : i = j := by
      rcases lt_trichotomy i j with hlt | heq | hlt
      · exact absurd (Walk.mem_produced.mpr ⟨i, hlt, hi⟩) hnew
      · exact heq
      · exact absurd (Walk.mem_produced.mpr ⟨j, hlt, hj⟩) hnew'
    exact ⟨hcap, hahead⟩
  · rintro ⟨hcap, hahead⟩
    refine ⟨x, ⟨j, ⟨hj, hnew, hcount, hcap, by omega, by omega⟩, hahead⟩, rfl, ?_⟩
    cases kind with
    | hourBound => rfl
    | secondPass => exact decide_eq_true ⟨hfrom, hto⟩
    | allDay => exact absurd rfl hkind

theorem seriesKind_ne_allDay (paris : Paris) (startsAt : ℤ) : seriesKind paris false startsAt ≠ .allDay := by
  rw [seriesKind_false]
  split <;> simp

/-- CORRECT: the earliest occurrences inside the window are listed, up to `MAX_OCCURRENCES`, exactly if the unroll gets to
    the instant of each. -/
theorem earliest_listed_iff (hwalk : seriesWalk paris crate rrule false startsAt = .ok (count, walk)) :
    ∃ listed, expandOccurrences paris crate rrule startsAt from_ to_ = .ok listed ∧
      ((∀ o, Earliest paris (seriesKind paris false startsAt) count walk from_ to_ o → o ∈ listed) ↔
        ∀ j x, walk.Counts paris count j x →
          Earliest paris (seriesKind paris false startsAt) count walk from_ to_
            ((seriesKind paris false startsAt).place paris x) →
          walk.Gets paris (seriesKind paris false startsAt) from_ to_ j) := by
  have hkind := seriesKind_ne_allDay paris startsAt
  refine ⟨_, by rw [expandOccurrences_eq, hwalk]; rfl, ?_⟩
  constructor
  · intro h j x hx hearliest
    exact (place_mem_startsOn_iff hkind hx hearliest.1.1 hearliest.1.2.1).mp (h _ hearliest)
  · intro h o hearliest
    obtain ⟨hfrom, hto, j, x, hx, rfl⟩ := hearliest.1
    exact (place_mem_startsOn_iff hkind hx hfrom hto).mpr (h j x hx hearliest)

/-- Every day from the epoch, over ten days. -/
theorem earliest_listed_iff_everyDay : ∃ listed,
    expandOccurrences europeParis (everyDayCrate europeParis) "FREQ=DAILY".toList 0 0 (10 * day) = .ok listed ∧
      ((∀ o, Earliest europeParis .hourBound none (everyDay (europeParis.local_ 0)) 0 (10 * day) o → o ∈ listed) ↔
        ∀ j x, (everyDay (europeParis.local_ 0)).Counts europeParis none j x →
          Earliest europeParis .hourBound none (everyDay (europeParis.local_ 0)) 0 (10 * day) x →
          (everyDay (europeParis.local_ 0)).Gets europeParis .hourBound 0 (10 * day) j) := by
  have hwalk : seriesWalk europeParis (everyDayCrate europeParis) "FREQ=DAILY".toList false 0 =
      .ok (none, everyDay (europeParis.local_ 0)) := rfl
  exact @earliest_listed_iff europeParis (everyDayCrate europeParis) none _ _ 0 0 (10 * day) hwalk

/-! ### Every minute, from the second 02:00 of 2026-10-25 -/

/-- The wall clocks of a rule that steps by the minute, from `w`. -/
def everyMinute (w : ℤ) : Walk where
  wall i := some (w + i * minute)
  ended i h := absurd h (by simp)
  increasing i w w' h h' := by
    obtain rfl := Option.some.inj h
    obtain rfl := Option.some.inj h'
    have : 0 < minute := by decide
    push_cast
    linarith

/-- `rrule` on `FREQ=MINUTELY`. -/
def everyMinuteCrate : Rrule where
  Rule := Unit
  Error := Unit
  invalidParameterFormat _ := ()
  parse text := if text = "FREQ=MINUTELY".toList then .ok () else .error ()
  getFreq _ := .Minutely
  getByHour _ := []
  getByMinute _ := []
  getBySecond _ := []
  getCount _ := none
  count _ rule := rule
  getUntil _ := none
  until_ _ rule := rule
  build _ anchor := .ok (everyMinute (europeParis.local_ anchor))

/-- The clocks go back. -/
def clocksBack : ℤ := 20751 * day + hour

theorem offset_winter {t : ℤ} (h : clocksBack ≤ t) (h' : t < 20905 * day) : europeParis.offset t = hour := by
  have hoffset : europeParis.offset t = Zone.tableOffset hour parisTable t := rfl
  have hhour := hour_pos
  have hday : day = 24 * hour := rfl
  rw [clocksBack] at h
  simp only [hoffset, parisTable, Zone.tableOffset]
  split_ifs <;> omega

/-- Two hours after the clocks went back, a wall clock names one instant. -/
theorem winter {w : ℤ} (h : clocksBack + 2 * hour ≤ w) (h' : w < 20904 * day) :
    europeParis.resolve w = w - hour ∧ europeParis.secondPassOfARepeatedHour (w - hour) = w - hour := by
  have hhour := hour_pos
  have hday : day = 24 * hour := rfl
  have hwidth : europeParis.width = 2 * hour := europeParis.width_eq
  have hbefore : europeParis.offset (w - europeParis.width) = hour := offset_winter (by omega) (by omega)
  have hafter : europeParis.offset (w + europeParis.width) = hour := offset_winter (by omega) (by omega)
  have hlocal : europeParis.local_ (w - hour) = w := by
    rw [Zone.local_, offset_winter (by omega) (by omega)]
    omega
  have hfirst : europeParis.earliest w = some (w - hour) := by
    rw [Zone.earliest, hbefore, if_pos hlocal]
  have hlast : europeParis.latest w = some (w - hour) := by
    rw [Zone.latest, hafter, if_pos hlocal]
  have hsecond := latest_local_eq europeParis (w - hour)
  rw [hlocal, hlast] at hsecond
  exact ⟨Zone.resolve_of_earliest hfirst, (Option.some.inj hsecond).symm⟩

/-- The walk of the series. -/
def minutes : Walk := everyMinute (clocksBack + hour)

theorem seriesWalk_minutes : seriesWalk europeParis everyMinuteCrate "FREQ=MINUTELY".toList false clocksBack =
    .ok (none, minutes) := by
  have hanchor : europeParis.local_ (europeParis.firstPassOfARepeatedHour clocksBack) = clocksBack + hour := by decide
  have hparse : parseRule everyMinuteCrate "FREQ=MINUTELY".toList = .ok () := rfl
  rw [seriesWalk, hparse, minutes, ← hanchor]
  rfl

theorem seriesKind_minutes : seriesKind europeParis false clocksBack = .secondPass := by decide

/-- From the 60th instant on, the series goes by the minute. -/
theorem instant_minutes {i : ℕ} (h : 60 ≤ i) (h' : i ≤ 10000) :
    minutes.instant europeParis i = some (clocksBack + i * minute) ∧
      SeriesKind.secondPass.place europeParis (clocksBack + i * minute) = clocksBack + i * minute := by
  have hhour : hour = 60 * minute := rfl
  have hday : day = 1440 * minute := rfl
  have hminute : 0 < minute := by decide
  have hlow : 60 * minute ≤ i * minute := Int.mul_le_mul_of_nonneg_right (by omega) hminute.le
  have hhigh : i * minute ≤ 10000 * minute := Int.mul_le_mul_of_nonneg_right (by omega) hminute.le
  obtain ⟨hresolve, hsecond⟩ := @winter (clocksBack + hour + i * minute) (by omega) (by rw [clocksBack]; omega)
  have heq : clocksBack + hour + i * minute - hour = clocksBack + i * minute := by omega
  rw [heq] at hresolve hsecond
  refine ⟨?_, hsecond⟩
  rw [Walk.instant, minutes, everyMinute, Option.map_some, hresolve]

/-- What is inside the window, 400 minutes on, is its minutes. -/
theorem inside_minutes (h : Inside europeParis .secondPass none minutes (clocksBack + 400 * minute)
    (clocksBack + 1399 * minute) o) : ∃ i : ℕ, 400 ≤ i ∧ i ≤ 1399 ∧ o = clocksBack + i * minute := by
  obtain ⟨hfrom, hto, i, x, ⟨hx, -⟩, rfl⟩ := h
  have hhour : hour = 60 * minute := rfl
  have hminute : 0 < minute := by decide
  obtain ⟨w, hw, rfl⟩ := Walk.instant_eq_some.mp hx
  obtain rfl := Option.some.inj hw
  have hbound := occurrenceAt_bound europeParis clocksBack (clocksBack + hour + i * minute)
  rw [occurrenceAt, seriesKind_minutes] at hbound
  have hlow : 60 ≤ i := by
    by_contra hlt
    have : i * minute ≤ 59 * minute := Int.mul_le_mul_of_nonneg_right (by omega) hminute.le
    omega
  have hhigh : i ≤ 10000 := by
    by_contra hlt
    have : 10001 * minute ≤ i * minute := Int.mul_le_mul_of_nonneg_right (by omega) hminute.le
    omega
  obtain ⟨hinstant, hplace⟩ := instant_minutes hlow hhigh
  rw [Option.some.inj (hx.symm.trans hinstant), hplace] at hfrom hto ⊢
  have hge : 400 * minute ≤ i * minute := by omega
  have hle : i * minute ≤ 1399 * minute := by omega
  have hge' : (400 : ℤ) ≤ i := le_of_mul_le_mul_right hge hminute
  have hle' : (i : ℤ) ≤ 1399 := le_of_mul_le_mul_right hle hminute
  exact ⟨i, by omega, by omega, rfl⟩

/-- The last minute inside is new when it comes. -/
theorem counts_last : minutes.Counts europeParis none 1399 (clocksBack + 1399 * minute) := by
  have hminute : 0 < minute := by decide
  have hhour : hour = 60 * minute := rfl
  refine ⟨(instant_minutes (by decide) (by decide)).1, fun hmem => ?_, rfl⟩
  obtain ⟨i, hi, hx⟩ := Walk.mem_produced.mp hmem
  obtain ⟨w, hw, hresolve⟩ := Walk.instant_eq_some.mp hx
  obtain rfl := Option.some.inj hw
  by_cases hlow : 60 ≤ i
  · have hsame := Option.some.inj ((instant_minutes hlow (by omega)).1.symm.trans hx)
    have : i * minute ≤ 1398 * minute := Int.mul_le_mul_of_nonneg_right (by omega) hminute.le
    omega
  · have hbound := europeParis.resolve_bound (clocksBack + hour + i * minute)
    have hwidth : europeParis.width = 2 * hour := europeParis.width_eq
    have : i * minute ≤ 59 * minute := Int.mul_le_mul_of_nonneg_right (by omega) hminute.le
    omega

/-- 999 minutes inside come before it. -/
theorem earliest_last : Earliest europeParis .secondPass none minutes (clocksBack + 400 * minute)
    (clocksBack + 1399 * minute) (clocksBack + 1399 * minute) := by
  have hminute : 0 < minute := by decide
  refine ⟨⟨by omega, le_refl _, 1399, _, counts_last, (instant_minutes (by decide) (by decide)).2⟩, fun s hs => ?_⟩
  have hsub : s ⊆ (Finset.Ico 400 1399).image fun i : ℕ => clocksBack + i * minute := by
    intro o ho
    obtain ⟨hinside, hlt⟩ := hs o ho
    obtain ⟨i, hge, -, rfl⟩ := inside_minutes hinside
    have hi : (i : ℤ) < 1399 := lt_of_mul_lt_mul_right (by omega : i * minute < 1399 * minute) hminute.le
    exact Finset.mem_image.mpr ⟨i, Finset.mem_Ico.mpr ⟨hge, by omega⟩, rfl⟩
  have hcard := (Finset.card_le_card hsub).trans Finset.card_image_le
  rw [Nat.card_Ico] at hcard
  exact lt_of_le_of_lt hcard (by decide)

/-- The unroll does not get to it: the hour before the window has spent the cap. -/
theorem not_gets_last : ¬minutes.Gets europeParis .secondPass (clocksBack + 400 * minute)
    (clocksBack + 1399 * minute) 1399 := by
  rintro ⟨hcap, -⟩
  have hminute : 0 < minute := by decide
  have hsecond : 0 < second := by decide
  have hhour : hour = 60 * minute := rfl
  have hmargin : SeriesKind.secondPass.margin = second + hour := rfl
  -- a thousand minutes of the widened window, from an hour before it
  have hnodup : ((List.range 1000).map fun k : ℕ => clocksBack + ((340 + k : ℕ) : ℤ) * minute).Nodup := by
    refine List.Nodup.map (fun a b hab => ?_) List.nodup_range
    have hmul : ((340 + a : ℕ) : ℤ) * minute = ((340 + b : ℕ) : ℤ) * minute := by
      omega
    have := Int.eq_of_mul_eq_mul_right hminute.ne' hmul
    omega
  have hsub : (List.range 1000).map (fun k : ℕ => clocksBack + ((340 + k : ℕ) : ℤ) * minute) ⊆
      (minutes.distinct europeParis 1399).filter
        (inWindow (clocksBack + 400 * minute - SeriesKind.secondPass.margin)
          (clocksBack + 1399 * minute + SeriesKind.secondPass.margin)) := by
    intro y hy
    obtain ⟨k, hk, rfl⟩ := List.mem_map.mp hy
    have hk' := List.mem_range.mp hk
    have hlow : 340 * minute ≤ ((340 + k : ℕ) : ℤ) * minute := Int.mul_le_mul_of_nonneg_right (by omega) hminute.le
    have hhigh : ((340 + k : ℕ) : ℤ) * minute ≤ 1399 * minute := Int.mul_le_mul_of_nonneg_right (by omega) hminute.le
    refine List.mem_filter.mpr ⟨List.mem_eraseDups.mpr ?_, decide_eq_true ⟨by omega, by omega⟩⟩
    exact Walk.mem_produced.mpr ⟨340 + k, by omega, (instant_minutes (by omega) (by omega)).1⟩
  have hle := (hnodup.subperm hsub).length_le
  rw [List.length_map, List.length_range] at hle
  exact absurd hcap (not_lt.mpr hle)

/-- The last of 1000 occurrences inside is not listed: 940 are. -/
theorem displaced_by_the_hour_before : ¬∀ (paris : Paris) (crate : Rrule) (rrule : Text) (startsAt from_ to_ : ℤ)
    (count : Option ℕ) (walk : Walk), seriesWalk paris crate rrule false startsAt = .ok (count, walk) →
    ∃ listed, expandOccurrences paris crate rrule startsAt from_ to_ = .ok listed ∧
      ∀ o, Earliest paris (seriesKind paris false startsAt) count walk from_ to_ o → o ∈ listed := by
  intro hclaim
  obtain ⟨listed, hlisted, hall⟩ := hclaim _ _ _ _ (clocksBack + 400 * minute) (clocksBack + 1399 * minute) _ _
    seriesWalk_minutes
  rw [expandOccurrences_eq, seriesWalk_minutes, seriesKind_minutes] at hlisted
  obtain rfl := Except.ok.inj hlisted
  rw [seriesKind_minutes] at hall
  have hmem := hall _ earliest_last
  have hplace := (@instant_minutes 1399 (by decide) (by decide)).2
  have hiff := @place_mem_startsOn_iff europeParis .secondPass none minutes (clocksBack + 400 * minute)
    (clocksBack + 1399 * minute) _ (by simp) 1399 counts_last
  push_cast at hplace hiff
  rw [hplace] at hiff
  have hminute : 0 < minute := by decide
  exact not_gets_last ((hiff (by omega) (le_refl _)).mp hmem)

end Home.Agenda
