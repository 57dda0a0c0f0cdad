import ManageOurHome.Agenda.WholeDays
import ManageOurHome.Lib.FMap
import ManageOurHome.Lib.Gregorian

/-! @src apps/web/src/routes/agenda/calendar.rs, apps/shared/src/validation/agenda.rs | layer:model | family:calendar

    The month on the agenda's page. Occurrences are put in the cell of the day each starts on; a crowded cell lists the
    first ones and counts the rest. An occurrence that goes past midnight falls on the next day too, whose cell does not
    have it: the grid is right exactly as long as no occurrence does so on a day it shows.

        lun          mar          mer
        22:00 ───────┊────── 02:00                 in Monday's cell, and not in Tuesday's -/

namespace Home.Agenda

open FiniteMap

/-! ### The page -/

/-- An event, at one of its occurrences. -/
structure OccurrenceResponse (Event : Type*) where
  event : Event
  occurrenceStartsAt : ℤ
  occurrenceEndsAt : ℤ
  deriving DecidableEq

variable (paris : Paris) {Event : Type*}

/-- The families' occurrences in time order, those at one time in the order of the families. -/
def mergeOccurrences (lists : List (List (OccurrenceResponse Event))) : List (OccurrenceResponse Event) :=
  lists.flatten.mergeSort fun a b => a.occurrenceStartsAt ≤ b.occurrenceStartsAt

/-- The occurrences of each day, each in the day it starts on. -/
def byDay (occurrences : List (OccurrenceResponse Event)) : FMap ℤ (List (OccurrenceResponse Event)) :=
  occurrences.foldl (fun days occ =>
    let day := paris.date occ.occurrenceStartsAt
    days.set day (some ((days.get day).getD [] ++ [occ]))) FMap.empty

/-- The most occurrences a month's cell lists. -/
def MONTH_CHIP_CAP : ℕ := 3

/-- How many of a day's occurrences its cell lists, and how many it counts. -/
def daySplit (total : ℕ) : Option ℕ → ℕ × ℕ
  | some cap => if cap < total then (cap - 1, total - (cap - 1)) else (total, 0)
  | none => (total, 0)

/-- A day's cell: what it carries, the first ones listed and the rest counted. -/
structure Cell (Event : Type*) where
  day : ℤ
  carried : List (OccurrenceResponse Event)
  listed : List (OccurrenceResponse Event)
  counted : ℕ

/-- The occurrences of a day. -/
def occurrencesOf (days : FMap ℤ (List (OccurrenceResponse Event))) (day : ℤ) : List (OccurrenceResponse Event) :=
  (days.get day).getD []

def renderChips (occs : List (OccurrenceResponse Event)) (cap : Option ℕ) (day : ℤ) : Cell Event :=
  let (shown, hidden) := daySplit occs.length cap
  { day := day, carried := occs, listed := occs.take shown, counted := hidden }

/-- The cells of a grid, one a day. -/
def renderGrid (days : List ℤ) (occs : FMap ℤ (List (OccurrenceResponse Event))) (cap : Option ℕ) : List (Cell Event) :=
  days.map fun day => renderChips (occurrencesOf occs day) cap day

/-- `Weekday::num_days_from_monday`: the epoch is a Thursday. -/
def numDaysFromMonday (day : ℤ) : ℤ := (day + 3) % 7

/-- The days of a month's grid: six weeks, from the Monday on or before the first. -/
def monthGrid (year : ℤ) (month : ℕ) : List ℤ :=
  match (Gregorian.Date.ofYmd year month 1 : Option (Gregorian.Date (-262143) 262142)) with
  | none => []
  | some first =>
    let start := first.sinceEpoch - numDaysFromMonday first.sinceEpoch
    (List.range 42).map fun i => start + i

/-- March 2026 starts on a Sunday. -/
example : (monthGrid 2026 3).head? = some (20541 - 34) := by decide

/-! ### What a cell has -/

variable {paris} {o : OccurrenceResponse Event} {d : ℤ} {occs : List (OccurrenceResponse Event)}

/-- An occurrence falls on a day: an instant of its span does, or the one it starts at when it has none. -/
def FallsOn (paris : Paris) (o : OccurrenceResponse Event) (d : ℤ) : Prop :=
  ∃ t, (t = o.occurrenceStartsAt ∨ o.occurrenceStartsAt ≤ t ∧ t < o.occurrenceEndsAt) ∧ paris.date t = d

theorem fallsOn_start (paris : Paris) (o : OccurrenceResponse Event) : FallsOn paris o (paris.date o.occurrenceStartsAt) :=
  ⟨o.occurrenceStartsAt, .inl rfl, rfl⟩

/-- Past the day it starts on, an occurrence falls on the days it has not ended at the midnight of. -/
theorem fallsOn_iff (hstart : paris.MidnightOnce (paris.date o.occurrenceStartsAt)) (hd : paris.MidnightOnce d) :
    FallsOn paris o d ↔ d = paris.date o.occurrenceStartsAt ∨
      paris.date o.occurrenceStartsAt < d ∧ paris.startOfDay d < o.occurrenceEndsAt := by
  constructor
  · rintro ⟨t, rfl | ⟨hle, hlt⟩, rfl⟩
    · exact .inl rfl
    · have hday : paris.date o.occurrenceStartsAt ≤ paris.date t :=
        (startOfDay_le_iff_date hstart).mp ((startOfDay_date_le paris _).trans hle)
      rcases hday.eq_or_lt with heq | hafter
      · exact .inl heq.symm
      · exact .inr ⟨hafter, (startOfDay_date_le paris t).trans_lt hlt⟩
  · rintro (rfl | ⟨hafter, hend⟩)
    · exact fallsOn_start paris o
    · exact ⟨paris.startOfDay d, .inr ⟨((lt_startOfDay_iff_date hd).mpr hafter).le, hend⟩, date_startOfDay paris d⟩

/-- BUCKETS: a day has the occurrences that start on it, in their order. -/
theorem occurrencesOf_byDay (occs : List (OccurrenceResponse Event)) (d : ℤ) :
    occurrencesOf (byDay paris occs) d = occs.filter fun o => paris.date o.occurrenceStartsAt = d := by
  induction occs using List.reverseRecOn with
  | nil => rfl
  | append_singleton occs o ih =>
    rw [byDay, List.foldl_append, List.foldl_cons, List.foldl_nil, ← byDay, List.filter_append, ← ih]
    dsimp only
    rw [occurrencesOf, occurrencesOf, FMap.get_set]
    by_cases hd : d = paris.date o.occurrenceStartsAt
    · subst hd
      simp
    · simp [hd, Ne.symm hd]

variable [DecidableEq Event]

/-- A list has the occurrences that fall on a day, each as often as it is given, and no other. -/
structure Exactly (paris : Paris) (occs : List (OccurrenceResponse Event)) (d : ℤ) (has : List (OccurrenceResponse Event)) :
    Prop where
  all : ∀ o, FallsOn paris o d → has.count o = occs.count o
  only : ∀ o ∈ has, FallsOn paris o d

/-- No occurrence falls on any of the days but the one it starts on. -/
def WithinDay (paris : Paris) (occs : List (OccurrenceResponse Event)) (days : List ℤ) : Prop :=
  ∀ o ∈ occs, ∀ d ∈ days, FallsOn paris o d → d = paris.date o.occurrenceStartsAt

theorem count_starting (occs : List (OccurrenceResponse Event)) (d : ℤ) (o : OccurrenceResponse Event) :
    (occs.filter fun o => paris.date o.occurrenceStartsAt = d).count o =
      if paris.date o.occurrenceStartsAt = d then occs.count o else 0 := by
  split
  · rename_i hd
    exact List.count_filter (decide_eq_true hd)
  · rename_i hd
    exact List.count_eq_zero.mpr fun hmem => hd (of_decide_eq_true (List.mem_filter.mp hmem).2)

/-- CELL: what starts on a day is what falls on it when nothing comes from the day before. -/
theorem exactly_starting (occs : List (OccurrenceResponse Event)) (d : ℤ) :
    Exactly paris occs d (occs.filter fun o => paris.date o.occurrenceStartsAt = d) ↔
      ∀ o ∈ occs, FallsOn paris o d → d = paris.date o.occurrenceStartsAt := by
  constructor
  · intro h o ho hfalls
    by_contra hne
    have hcount := h.all o hfalls
    rw [count_starting, if_neg (Ne.symm hne)] at hcount
    exact List.count_eq_zero.mp hcount.symm ho
  · intro h
    refine ⟨fun o hfalls => ?_, fun o ho => ?_⟩
    · rw [count_starting]
      split
      · rfl
      · rename_i hne
        exact (List.count_eq_zero.mpr fun ho => hne (h o ho hfalls).symm).symm
    · rw [List.mem_filter, decide_eq_true_iff] at ho
      rw [← ho.2]
      exact fallsOn_start paris o

/-- A list cut short has no longer what falls on the day. -/
theorem exactly_take {has : List (OccurrenceResponse Event)} {n : ℕ}
    (hsub : ∀ o, has.count o ≤ occs.count o) (hfalls : ∀ o ∈ has, FallsOn paris o d) :
    Exactly paris occs d (has.take n) ↔ Exactly paris occs d has ∧ has.length ≤ n := by
  constructor
  · intro h
    have hperm : (has.take n).Perm has := by
      rw [List.perm_iff_count]
      intro o
      have hle : (has.take n).count o ≤ has.count o := (List.take_sublist n has).count_le o
      by_cases ho : o ∈ has
      · have hall := h.all o (hfalls o ho)
        have := hsub o
        omega
      · rw [List.count_eq_zero.mpr ho] at hle ⊢
        omega
    refine ⟨⟨fun o ho => ?_, hfalls⟩, ?_⟩
    · rw [← hperm.count_eq o]
      exact h.all o ho
    · have hlen := hperm.length_eq
      rw [List.length_take] at hlen
      omega
  · rintro ⟨h, hlen⟩
    rwa [List.take_of_length_le hlen]

theorem exactly_perm {occs' has : List (OccurrenceResponse Event)} (h : occs'.Perm occs) :
    Exactly paris occs' d has ↔ Exactly paris occs d has := by
  constructor
  · intro hex
    exact ⟨fun o ho => (hex.all o ho).trans (h.count_eq o), hex.only⟩
  · intro hex
    exact ⟨fun o ho => (hex.all o ho).trans (h.count_eq o).symm, hex.only⟩

theorem length_le_daySplit (total cap : ℕ) (hcap : 0 < cap) : total ≤ (daySplit total (some cap)).1 ↔ total ≤ cap := by
  rw [daySplit]
  split
  · dsimp only
    omega
  · dsimp only
    omega

variable (paris) in
/-- GRID: the cells of some days carry exactly what falls on their days when nothing falls on one of them but on the day
    it starts; they list all of that when no day has more than a cell lists. -/
theorem renderGrid_exactly (lists : List (List (OccurrenceResponse Event))) (days : List ℤ) (cap : ℕ) (hcap : 0 < cap) :
    ((∀ cell ∈ renderGrid days (byDay paris (mergeOccurrences lists)) (some cap),
        Exactly paris lists.flatten cell.day cell.carried) ↔ WithinDay paris lists.flatten days) ∧
    ((∀ cell ∈ renderGrid days (byDay paris (mergeOccurrences lists)) (some cap),
        Exactly paris lists.flatten cell.day cell.listed) ↔ WithinDay paris lists.flatten days ∧
      ∀ d ∈ days, (lists.flatten.filter fun o => paris.date o.occurrenceStartsAt = d).length ≤ cap) := by
  have hperm : (mergeOccurrences lists).Perm lists.flatten := List.mergeSort_perm _ _
  have hcell : ∀ d, Exactly paris lists.flatten d (occurrencesOf (byDay paris (mergeOccurrences lists)) d) ↔
      ∀ o ∈ lists.flatten, FallsOn paris o d → d = paris.date o.occurrenceStartsAt := by
    intro d
    rw [occurrencesOf_byDay, ← exactly_perm hperm, exactly_starting]
    simp only [hperm.mem_iff]
  have hwithin : (∀ d ∈ days, ∀ o ∈ lists.flatten, FallsOn paris o d → d = paris.date o.occurrenceStartsAt) ↔
      WithinDay paris lists.flatten days :=
    ⟨fun h o ho d hd => h d hd o ho, fun h d hd o ho => h o ho d hd⟩
  simp only [renderGrid, List.forall_mem_map]
  constructor
  · rw [← hwithin]
    exact forall₂_congr fun d _ => hcell d
  · rw [← hwithin, ← forall₂_and]
    refine forall₂_congr fun d _ => ?_
    rw [← hcell d]
    have hlen : (occurrencesOf (byDay paris (mergeOccurrences lists)) d).length =
        (lists.flatten.filter fun o => paris.date o.occurrenceStartsAt = d).length := by
      rw [occurrencesOf_byDay]
      exact (hperm.filter _).length_eq
    rw [← hlen, ← length_le_daySplit _ cap hcap]
    refine exactly_take (fun o => ?_) fun o ho => ?_
    · rw [occurrencesOf_byDay, count_starting, hperm.count_eq]
      split
      · exact le_refl _
      · exact Nat.zero_le _
    · rw [occurrencesOf_byDay, List.mem_filter, decide_eq_true_iff] at ho
      rw [← ho.2]
      exact fallsOn_start paris o

/-- A night out, from ten on 2026-03-30 to two the next morning. -/
def nightOut : OccurrenceResponse Unit := ⟨(), 20542 * day + 20 * hour, 20543 * day⟩

theorem monthGrid_nightOut : ¬∀ cell ∈ renderGrid (monthGrid 2026 3) (byDay europeParis (mergeOccurrences [[nightOut]]))
    (some MONTH_CHIP_CAP), Exactly europeParis [nightOut] cell.day cell.carried := by
  have hexact := (renderGrid_exactly europeParis [[nightOut]] (monthGrid 2026 3) MONTH_CHIP_CAP (by decide)).1
  intro h
  have hnext := hexact.mp h nightOut (by simp) 20543 (by decide)
    ⟨20542 * day + 23 * hour, .inr (by decide +kernel), by decide +kernel⟩
  exact absurd hnext (by decide +kernel)

/-- MONTH: a month's cells carry exactly the occurrences that fall on their days as long as none falls on a day shown but
    the one it starts on, that is as long as none goes past the midnight of a later day shown. -/
theorem monthGrid_exactly (paris : Paris) (lists : List (List (OccurrenceResponse Event))) (year : ℤ) (month : ℕ) :
    ((∀ cell ∈ renderGrid (monthGrid year month) (byDay paris (mergeOccurrences lists)) (some MONTH_CHIP_CAP),
        Exactly paris lists.flatten cell.day cell.carried) ↔ WithinDay paris lists.flatten (monthGrid year month)) ∧
    ((∀ cell ∈ renderGrid (monthGrid year month) (byDay paris (mergeOccurrences lists)) (some MONTH_CHIP_CAP),
        Exactly paris lists.flatten cell.day cell.listed) ↔ WithinDay paris lists.flatten (monthGrid year month) ∧
      ∀ d ∈ monthGrid year month,
        (lists.flatten.filter fun o => paris.date o.occurrenceStartsAt = d).length ≤ MONTH_CHIP_CAP) ∧
    ∀ (o : OccurrenceResponse Event) (d : ℤ), paris.MidnightOnce (paris.date o.occurrenceStartsAt) → paris.MidnightOnce d →
      (FallsOn paris o d ↔ d = paris.date o.occurrenceStartsAt ∨
        paris.date o.occurrenceStartsAt < d ∧ paris.startOfDay d < o.occurrenceEndsAt) := by
  obtain ⟨hcarried, hlisted⟩ := renderGrid_exactly paris lists (monthGrid year month) MONTH_CHIP_CAP (by decide)
  exact ⟨hcarried, hlisted, fun o d hstart hd => fallsOn_iff hstart hd⟩

end Home.Agenda
