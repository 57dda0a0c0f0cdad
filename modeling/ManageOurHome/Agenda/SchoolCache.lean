import Mathlib.Data.Finset.Basic
import Mathlib.Data.List.Infix
import ManageOurHome.Agenda.Clock
import ManageOurHome.Agenda.SchoolHolidays

/-! @src apps/api/src/agenda/school_holidays.rs, apps/api/src/jobs/school_holidays.rs,
        apps/api/migrations/0047_school_holidays.sql | layer:proof | family:national days

    The cache of the school holidays, refreshed once a day: an accepted answer replaces the rows of the two school years
    it was asked for, and those of the years before stay. The primary key does not hold the school year: a period of a
    year that stays cannot be cached again under another one, and the whole answer is refused with it.

        31 August 2026      2025-2026: A, 4 July 2026, Été
        1 September 2026    2026-2027: A, 4 July 2026, Été    refused, and so on every day after

    What a column of text or its index cannot hold is refused too. -/

namespace Home.Agenda.SchoolHolidays

/-! ### The table -/

/-- `school_year ~ '^[0-9]{4}-[0-9]{4}$'`. -/
def yearPattern (year : Text) : Bool :=
  year.length = 9 ∧ (year.take 4).all Char.isDigit ∧ (year.drop 4).take 1 = ['-'] ∧ (year.drop 5).all Char.isDigit

/-- `btrim`. -/
def btrim (label : Text) : Text := (label.dropWhile (· = ' ')).rdropWhile (· = ' ')

/-- The `CHECK`s of the table. -/
def SchoolHoliday.checks (p : SchoolHoliday) : Bool :=
  p.zone.asStr ∈ [['A'], ['B'], ['C']] ∧ btrim p.label ≠ [] ∧ yearPattern p.schoolYear ∧ p.startsOn ≤ p.endsOn

/-- What PostgreSQL holds of a text: no NUL; and of a row of the primary key's index, which is bounded in size. -/
def storable (indexable : PeriodKey → Bool) (p : SchoolHoliday) : Bool := Char.ofNat 0 ∉ p.label ∧ indexable p.key

/-- The rows of `school_holidays`. -/
structure Cache where
  rows : Finset SchoolHoliday
  primaryKey : ∀ p ∈ rows, ∀ q ∈ rows, p.key = q.key → p = q
  checked : ∀ p ∈ rows, p.checks = true

def Cache.empty : Cache := ⟨∅, by simp, by simp⟩

/-- What the `DELETE` leaves. -/
def Cache.kept (cache : Cache) (years : Years) : Finset SchoolHoliday :=
  cache.rows.filter fun p => years.asked p.schoolYear = false

variable (chrono : Chrono) (indexable : PeriodKey → Bool)

/-- The periods the `INSERT` takes: they break no constraint, among themselves or with the rows left. -/
structure Fits (cache : Cache) (years : Years) (periods : List SchoolHoliday) : Prop where
  storable : ∀ p ∈ periods, storable indexable p = true
  checks : ∀ p ∈ periods, p.checks = true
  nodup : (periods.map SchoolHoliday.key).Nodup
  apart : ∀ q ∈ cache.kept years, q.key ∉ periods.map SchoolHoliday.key

instance (cache : Cache) (years : Years) (periods : List SchoolHoliday) :
    Decidable (Fits indexable cache years periods) :=
  decidable_of_iff ((∀ p ∈ periods, storable indexable p = true) ∧ (∀ p ∈ periods, p.checks = true) ∧
      (periods.map SchoolHoliday.key).Nodup ∧ ∀ q ∈ cache.kept years, q.key ∉ periods.map SchoolHoliday.key)
    ⟨fun ⟨h₁, h₂, h₃, h₄⟩ => ⟨h₁, h₂, h₃, h₄⟩, fun ⟨h₁, h₂, h₃, h₄⟩ => ⟨h₁, h₂, h₃, h₄⟩⟩

variable {chrono indexable} {cache : Cache} {years : Years} {periods : List SchoolHoliday}

theorem Fits.primaryKey (h : Fits indexable cache years periods) :
    ∀ p ∈ cache.kept years ∪ periods.toFinset, ∀ q ∈ cache.kept years ∪ periods.toFinset, p.key = q.key → p = q := by
  intro p hp q hq hkey
  rw [Finset.mem_union, List.mem_toFinset] at hp hq
  rcases hp with hp | hp
  · rcases hq with hq | hq
    · exact cache.primaryKey p (Finset.mem_filter.mp hp).1 q (Finset.mem_filter.mp hq).1 hkey
    · exact absurd (hkey ▸ List.mem_map_of_mem hq) (h.apart p hp)
  · rcases hq with hq | hq
    · exact absurd (hkey ▸ List.mem_map_of_mem hp) (h.apart q hq)
    · exact List.inj_on_of_nodup_map h.nodup hp hq hkey

theorem Fits.checked (h : Fits indexable cache years periods) :
    ∀ p ∈ cache.kept years ∪ periods.toFinset, p.checks = true := by
  intro p hp
  rw [Finset.mem_union, List.mem_toFinset] at hp
  rcases hp with hp | hp
  · exact cache.checked p (Finset.mem_filter.mp hp).1
  · exact h.checks p hp

variable (chrono indexable)

/-- One transaction: `none` is its rollback. -/
def replaceCache (years : Years) (periods : List SchoolHoliday) (cache : Cache) : Option Cache :=
  if h : Fits indexable cache years periods then some ⟨cache.kept years ∪ periods.toFinset, h.primaryKey, h.checked⟩
  else none

/-! ### The job -/

/-- One pass: the Paris day, and the JSON answered, if any was. -/
structure Pass where
  today : NaiveDate
  answer : Option Json.Value

def Pass.asks (pass : Pass) : Years := schoolYears pass.today

def Pass.accepted (pass : Pass) : Option (List SchoolHoliday) :=
  pass.answer.bind fun body => (parseCalendar chrono body pass.asks).toOption

/-- The cache after, and how many periods were cached; an error writes nothing. -/
def refresh (pass : Pass) (cache : Cache) : Option (Cache × ℕ) := do
  let body ← pass.answer
  let periods ← (parseCalendar chrono body pass.asks).toOption
  let cache ← replaceCache indexable pass.asks periods cache
  pure (cache, periods.length)

def run (cache : Cache) (pass : Pass) : Cache := ((refresh chrono indexable pass cache).map Prod.fst).getD cache

/-- The cache after the passes, the table being created empty. -/
def cacheAfter (passes : List Pass) : Cache := passes.foldl (run chrono indexable) Cache.empty

theorem length_toDigits_eq_four {n : ℕ} : (Nat.toDigits 10 n).length = 4 ↔ 1000 ≤ n ∧ n < 10000 := by
  have hle := Nat.length_toDigits_le_iff (n := n) (k := 3) (b := 10) (by decide) (by decide)
  have hle' := Nat.length_toDigits_le_iff (n := n) (k := 4) (b := 10) (by decide) (by decide)
  omega

theorem all_toDigits (n : ℕ) : (Nat.toDigits 10 n).all Char.isDigit = true :=
  List.all_eq_true.mpr fun _ hc => Nat.isDigit_of_mem_toDigits (by decide) (by decide) hc

theorem decimal_natCast (n : ℕ) : decimal n = Nat.toDigits 10 n := by
  rw [decimal, if_neg (by omega), List.nil_append, Int.natAbs_natCast]

/-- The table takes the school years 1000-1001 to 9998-9999. -/
theorem yearPattern_yearText (first : ℤ) : yearPattern (yearText first) = true ↔ 1000 ≤ first ∧ first ≤ 9998 := by
  rw [yearPattern, decide_eq_true_iff]
  constructor
  · rintro ⟨hlen, hdigits, hdash, -⟩
    have hpos : 0 ≤ first := by
      by_contra hneg
      rw [yearText, decimal, if_pos (not_le.mp hneg)] at hdigits
      exact absurd (List.all_eq_true.mp hdigits '-' List.mem_cons_self) (by decide)
    obtain ⟨n, rfl⟩ := Int.eq_ofNat_of_zero_le hpos
    have hnext : decimal ((n : ℤ) + 1) = Nat.toDigits 10 (n + 1) := decimal_natCast (n + 1)
    rw [yearText, decimal_natCast, hnext] at hlen hdigits hdash
    rw [List.length_append, List.length_cons] at hlen
    have hfour : (Nat.toDigits 10 n).length = 4 := by
      rcases lt_trichotomy (Nat.toDigits 10 n).length 4 with hlt | heq | hgt
      · -- the dash is among the first four
        have hmem : '-' ∈ (Nat.toDigits 10 n ++ '-' :: Nat.toDigits 10 (n + 1)).take 4 := by
          rw [List.take_append, List.take_of_length_le hlt.le, List.mem_append]
          obtain ⟨k, hk⟩ := Nat.exists_eq_succ_of_ne_zero (Nat.sub_ne_zero_of_lt hlt)
          exact .inr (by rw [hk]; exact List.mem_cons_self)
        exact absurd (List.all_eq_true.mp hdigits '-' hmem) (by decide)
      · exact heq
      · have hmem : '-' ∈ Nat.toDigits 10 n := by
          have hdrop : ((Nat.toDigits 10 n).drop 4).take 1 = ['-'] := by
            have hone : 1 ≤ ((Nat.toDigits 10 n).drop 4).length := by
              rw [List.length_drop]
              omega
            rw [List.drop_append_of_le_length hgt.le, List.take_append_of_le_length hone] at hdash
            exact hdash
          exact List.mem_of_mem_drop (List.mem_of_mem_take (hdrop ▸ List.mem_singleton_self _))
        exact absurd (List.all_eq_true.mp (all_toDigits n) '-' hmem) (by decide)
    have hfour' : (Nat.toDigits 10 (n + 1)).length = 4 := by omega
    have hlo := length_toDigits_eq_four.mp hfour
    have hhi := length_toDigits_eq_four.mp hfour'
    omega
  · rintro ⟨hlo, hhi⟩
    obtain ⟨n, rfl⟩ := Int.eq_ofNat_of_zero_le (show 0 ≤ first by omega)
    have hnext : decimal ((n : ℤ) + 1) = Nat.toDigits 10 (n + 1) := decimal_natCast (n + 1)
    have hfour : (Nat.toDigits 10 n).length = 4 := length_toDigits_eq_four.mpr (by omega)
    have hfour' : (Nat.toDigits 10 (n + 1)).length = 4 := length_toDigits_eq_four.mpr (by omega)
    rw [yearText, decimal_natCast, hnext]
    refine ⟨by rw [List.length_append, List.length_cons, hfour, hfour'], ?_, ?_, ?_⟩
    · rw [List.take_left' hfour]
      exact all_toDigits n
    · rw [List.drop_left' hfour]
      rfl
    · rw [List.drop_append, hfour, List.drop_of_length_le (by omega)]
      exact all_toDigits (n + 1)

/-! ### Whole answers -/

/-- The last accepted answer that asked for a school year. -/
def lastAnswer (passes : List Pass) (year : Text) : Option (List SchoolHoliday) :=
  passes.reverse.findSome? fun pass => if pass.asks.asked year then pass.accepted chrono else none

/-- What a pass, the last of those done, leaves. -/
structure Cached (done : List Pass) (pass : Pass) : Prop where
  written : (pass.accepted chrono).isSome = true →
    (refresh chrono indexable pass (cacheAfter chrono indexable done)).isSome = true
  last : ∀ p, p ∈ (cacheAfter chrono indexable (done ++ [pass])).rows ↔
    ∃ periods, lastAnswer chrono (done ++ [pass]) p.schoolYear = some periods ∧ p ∈ periods
  otherwise : pass.accepted chrono = none →
    cacheAfter chrono indexable (done ++ [pass]) = cacheAfter chrono indexable done

/-- What a pass needs of its answer and of the cache: labels a column holds, years the table's pattern takes, and no
    period that stays cached under a year that is not asked for. -/
def Unhindered (cache : Cache) (pass : Pass) : Prop :=
  ∀ body ∈ pass.answer, ∀ rows ∈ results body, ∀ p, Given chrono pass.asks rows p →
    storable indexable p = true ∧ yearPattern p.schoolYear = true ∧
      ∀ q ∈ cache.rows, q.key = p.key → pass.asks.asked q.schoolYear = true

variable {chrono indexable} {body : Json.Value} {rows : List Json.Value} {row : Json.Value} {p : SchoolHoliday}
  {accepted : List SchoolHoliday} {pass : Pass} {done passes : List Pass}

theorem btrim_ne_nil {label : Text} (hne : label ≠ []) (htrim : trim label = label) : btrim label ≠ [] := by
  obtain ⟨c, rest, rfl⟩ := List.exists_cons_of_ne_nil hne
  have hc : isWhitespace c = false := by
    have hdrop := dropWhile_trim (c :: rest)
    rw [htrim] at hdrop
    exact head_visible hdrop c rfl
  have hspace : ¬(c = ' ') := fun heq => absurd hc (heq ▸ by decide)
  intro h
  rw [btrim, List.dropWhile_cons_of_neg (by simpa using hspace), List.rdropWhile_eq_nil_iff] at h
  exact hspace (by simpa using h c List.mem_cons_self)

theorem Kept.trim_label {zone : SchoolZone} {label year : Text} {startsOn resumesOn : ℤ}
    (h : Kept chrono years row zone label year startsOn resumesOn) : trim label = label := by
  obtain ⟨description, -, rfl⟩ := Option.map_eq_some_iff.mp h.labelled
  exact trim_trim description

theorem Gives.checks_iff (h : Gives chrono years row p) : p.checks = true ↔ yearPattern p.schoolYear = true := by
  obtain ⟨resumesOn, hkept, -⟩ := id h
  have hzone : p.zone.asStr ∈ [['A'], ['B'], ['C']] := by cases p.zone <;> decide
  rw [SchoolHoliday.checks, decide_eq_true_iff, and_iff_right hzone,
    and_iff_right (btrim_ne_nil hkept.named hkept.trim_label), and_iff_left h.startsOn_le]

theorem Accepted.fits_iff (h : Accepted chrono body years accepted) (hrows : results body = some rows) :
    Fits indexable cache years accepted ↔ ∀ p, Given chrono years rows p →
      storable indexable p = true ∧ yearPattern p.schoolYear = true ∧
        ∀ q ∈ cache.rows, q.key = p.key → years.asked q.schoolYear = true := by
  obtain ⟨rows', hrows', -, -, hmem⟩ := h.whole
  obtain rfl : rows = rows' := Option.some.inj (hrows.symm.trans hrows')
  have hchecks : ∀ p ∈ accepted, p.checks = true ↔ yearPattern p.schoolYear = true := fun p hp => by
    obtain ⟨row, -, hgives⟩ := (hmem p).mp hp
    exact hgives.checks_iff
  constructor
  · intro hfits p hp
    have hp := (hmem p).mpr hp
    refine ⟨hfits.storable p hp, (hchecks p hp).mp (hfits.checks p hp), fun q hq hkey => ?_⟩
    by_contra hother
    exact hfits.apart q (Finset.mem_filter.mpr ⟨hq, Bool.eq_false_iff.mpr hother⟩) (hkey ▸ List.mem_map_of_mem hp)
  · intro hall
    refine ⟨fun p hp => (hall p ((hmem p).mp hp)).1, fun p hp => (hchecks p hp).mpr (hall p ((hmem p).mp hp)).2.1,
      List.pairwise_map.mpr (h.increasing.imp fun hlt => hlt.ne), fun q hq hkey => ?_⟩
    obtain ⟨p, hp, hkey⟩ := List.mem_map.mp hkey
    obtain ⟨hq, hother⟩ := Finset.mem_filter.mp hq
    have hasked := (hall p ((hmem p).mp hp)).2.2 q hq hkey.symm
    rw [hother] at hasked
    cases hasked

/-! ### One pass -/

theorem accepted_eq_some : pass.accepted chrono = some accepted ↔
    ∃ body, pass.answer = some body ∧ parseCalendar chrono body pass.asks = .ok accepted := by
  rw [Pass.accepted, Option.bind_eq_some_iff]
  refine exists_congr fun body => and_congr_right fun _ => ?_
  cases parseCalendar chrono body pass.asks with
  | error e => simp [Except.toOption]
  | ok periods => simp [Except.toOption]

theorem refresh_eq (cache : Cache) : refresh chrono indexable pass cache = (pass.accepted chrono).bind fun periods =>
    (replaceCache indexable pass.asks periods cache).map fun cache => (cache, periods.length) := by
  cases hanswer : pass.answer with
  | none => simp [refresh, Pass.accepted, hanswer]
  | some body => simp [refresh, Pass.accepted, hanswer, Option.map_eq_bind]

theorem written_iff (h : pass.accepted chrono = some accepted) (cache : Cache) :
    (refresh chrono indexable pass cache).isSome = true ↔ Unhindered chrono indexable cache pass := by
  obtain ⟨body, hanswer, hparse⟩ := accepted_eq_some.mp h
  have haccepted := parseCalendar_eq_ok.mp hparse
  obtain ⟨rows, hrows, -⟩ := haccepted.whole
  have hunhindered : Unhindered chrono indexable cache pass ↔ Fits indexable cache pass.asks accepted := by
    rw [haccepted.fits_iff hrows]
    constructor
    · intro hall
      exact hall body hanswer rows hrows
    · intro hfits body' hbody' rows' hrows'
      obtain rfl : body = body' := Option.some.inj (hanswer.symm.trans hbody')
      obtain rfl : rows = rows' := Option.some.inj (hrows.symm.trans hrows')
      exact hfits
  rw [refresh_eq, h, Option.bind_some, Option.isSome_map, hunhindered, replaceCache]
  split
  · rename_i hfits
    exact iff_of_true rfl hfits
  · rename_i hnot
    exact iff_of_false (by simp) hnot

theorem mem_run (h : pass.accepted chrono = some accepted)
    (hwritten : (refresh chrono indexable pass cache).isSome = true) :
    p ∈ (run chrono indexable cache pass).rows ↔
      p ∈ accepted ∨ (p ∈ cache.rows ∧ pass.asks.asked p.schoolYear = false) := by
  rw [run, refresh_eq, h, Option.bind_some, replaceCache]
  rw [refresh_eq, h, Option.bind_some, replaceCache] at hwritten
  split
  · rw [Option.map_some, Option.map_some, Option.getD_some, Finset.mem_union, List.mem_toFinset, Cache.kept,
      Finset.mem_filter, or_comm]
  · rename_i hnot
    rw [dif_neg hnot] at hwritten
    cases hwritten

theorem run_of_not_accepted (h : pass.accepted chrono = none) (cache : Cache) :
    run chrono indexable cache pass = cache := by
  rw [run, refresh_eq, h]
  rfl

theorem asked_of_mem (h : pass.accepted chrono = some accepted) (hp : p ∈ accepted) :
    pass.asks.asked p.schoolYear = true := by
  obtain ⟨body, -, hparse⟩ := accepted_eq_some.mp h
  obtain ⟨rows, -, -, -, hmem⟩ := (parseCalendar_eq_ok.mp hparse).whole
  obtain ⟨row, -, resumesOn, hkept, -⟩ := (hmem p).mp hp
  exact hkept.asked

/-! ### A run -/

theorem cacheAfter_concat (done : List Pass) (pass : Pass) :
    cacheAfter chrono indexable (done ++ [pass]) = run chrono indexable (cacheAfter chrono indexable done) pass := by
  rw [cacheAfter, List.foldl_append]
  rfl

theorem lastAnswer_concat (done : List Pass) (pass : Pass) (year : Text) :
    lastAnswer chrono (done ++ [pass]) year =
      (if pass.asks.asked year then pass.accepted chrono else none).or (lastAnswer chrono done year) := by
  rw [lastAnswer, List.reverse_append, List.reverse_singleton, List.singleton_append, List.findSome?_cons]
  cases (if pass.asks.asked year then pass.accepted chrono else none) <;> rfl

/-- Each year of the cache is that of its last answer, as long as every accepted one was written. -/
theorem mem_cacheAfter (h : ∀ done pass, done ++ [pass] <+: passes → (pass.accepted chrono).isSome = true →
      (refresh chrono indexable pass (cacheAfter chrono indexable done)).isSome = true) (p : SchoolHoliday) :
    p ∈ (cacheAfter chrono indexable passes).rows ↔
      ∃ periods, lastAnswer chrono passes p.schoolYear = some periods ∧ p ∈ periods := by
  induction passes using List.reverseRecOn with
  | nil => exact iff_of_false (by simp [cacheAfter, Cache.empty]) (by simp [lastAnswer])
  | append_singleton done pass ih =>
    have ih := ih fun done' pass' hrun => h done' pass' (hrun.trans (List.prefix_append _ _))
    rw [cacheAfter_concat, lastAnswer_concat]
    cases haccepted : pass.accepted chrono with
    | none => rw [run_of_not_accepted haccepted, ite_self, Option.none_or, ih]
    | some accepted =>
      rw [mem_run haccepted (h done pass (List.prefix_refl _) (by rw [haccepted]; rfl)), ih]
      cases hasked : pass.asks.asked p.schoolYear with
      | true => simp
      | false =>
        have hnot : p ∉ accepted := fun hp => by
          rw [asked_of_mem haccepted hp] at hasked
          cases hasked
        simp [hnot]

/-- What an answer's periods do not depend on, and what they are. -/
structure ParsedWhole (chrono : Chrono) (years : Years) : Prop where
  same : ∀ body body' rows rows' accepted, results body = some rows → results body' = some rows' →
    (∀ row, row ∈ rows ↔ row ∈ rows') →
    ((∀ total ∈ totalCount body, total ≤ rows.length) ↔ ∀ total ∈ totalCount body', total ≤ rows'.length) →
    (parseCalendar chrono body years = .ok accepted ↔ parseCalendar chrono body' years = .ok accepted)
  accepted : ∀ body accepted, parseCalendar chrono body years = .ok accepted →
    Accepted chrono body years accepted ∧ ∀ p ∈ accepted, p.startsOn ≤ p.endsOn

theorem parsedWhole (chrono : Chrono) (years : Years) : ParsedWhole chrono years where
  same body body' rows rows' accepted hrows hrows' hsame htotal := parseCalendar_rows hrows hrows' hsame htotal
  accepted body accepted hparse := by
    have haccepted := parseCalendar_eq_ok.mp hparse
    refine ⟨haccepted, fun p hp => ?_⟩
    obtain ⟨rows, -, -, -, hmem⟩ := haccepted.whole
    obtain ⟨row, -, hgives⟩ := (hmem p).mp hp
    exact hgives.startsOn_le

/-- The cache holds whole accepted answers if and only if none of them is hindered by the table. -/
theorem wholeAnswers_iff (chrono : Chrono) (indexable : PeriodKey → Bool) (passes : List Pass) :
    ((∀ years, ParsedWhole chrono years) ∧ ∀ done pass, done ++ [pass] <+: passes → Cached chrono indexable done pass) ↔
      ∀ done pass, done ++ [pass] <+: passes → (pass.accepted chrono).isSome = true →
        Unhindered chrono indexable (cacheAfter chrono indexable done) pass := by
  constructor
  · rintro ⟨-, h⟩ done pass hrun hsome
    obtain ⟨accepted, haccepted⟩ := Option.isSome_iff_exists.mp hsome
    exact (written_iff haccepted _).mp ((h done pass hrun).written hsome)
  · intro h
    have hwritten : ∀ done pass, done ++ [pass] <+: passes → (pass.accepted chrono).isSome = true →
        (refresh chrono indexable pass (cacheAfter chrono indexable done)).isSome = true := by
      intro done pass hrun hsome
      obtain ⟨accepted, haccepted⟩ := Option.isSome_iff_exists.mp hsome
      exact (written_iff haccepted _).mpr (h done pass hrun hsome)
    refine ⟨parsedWhole chrono, fun done pass hrun => ?_⟩
    exact {
      written := hwritten done pass hrun
      last := mem_cacheAfter fun done' pass' hrun' => hwritten done' pass' (hrun'.trans hrun)
      otherwise := fun hnone => by rw [cacheAfter_concat, run_of_not_accepted hnone] }

/-! ### A summer moved to the next school year -/

/-- A timestamp of a whole hour, in UTC. -/
def readUtc (t : Text) : Option ℤ :=
  let number (digits : Text) : ℕ := digits.foldl (fun n c => 10 * n + (c.toNat - 48)) 0
  if t.drop 13 = ":00:00+00:00".toList then
    let date : Option NaiveDate :=
      Gregorian.Date.ofYmd (number (t.take 4)) (number ((t.drop 5).take 2)) (number ((t.drop 8).take 2))
    date.map fun date => date.sinceEpoch * Home.day + number ((t.drop 11).take 2) * hour
  else none

def utc : Chrono := ⟨readUtc, europeParis.date⟩

def record (zone : SchoolZone) (year label startDate endDate : Text) : Json.Value :=
  .Object [("zones".toList, .String ("Zone ".toList ++ zone.asStr)), ("annee_scolaire".toList, .String year),
    ("description".toList, .String label), ("population".toList, .String ['-']),
    ("start_date".toList, .String startDate), ("end_date".toList, .String endDate)]

def answerOf (rows : List Json.Value) : Json.Value :=
  .Object [("total_count".toList, .Number (.PosInt rows.length)), ("results".toList, .Array rows)]

/-- The summer of 2026, in the school year it closes. -/
def lastOfAugust : Pass where
  today := ⟨2026, 8, 31, by decide⟩
  answer := some (answerOf ((SchoolZone.ALL.map fun zone => record zone "2025-2026".toList "Été".toList
    "2026-07-03T22:00:00+00:00".toList "2026-08-31T22:00:00+00:00".toList)))

/-- The same summer for zone A, in the school year after it. -/
def firstOfSeptember : Pass where
  today := ⟨2026, 9, 1, by decide⟩
  answer := some (answerOf (record .A "2026-2027".toList "Été".toList
    "2026-07-03T22:00:00+00:00".toList "2026-08-31T22:00:00+00:00".toList ::
    SchoolZone.ALL.map fun zone => record zone "2026-2027".toList "Toussaint".toList
      "2026-10-16T22:00:00+00:00".toList "2026-11-01T23:00:00+00:00".toList))

theorem summer_moved : lastOfAugust.today.sinceEpoch ≤ firstOfSeptember.today.sinceEpoch ∧
    ¬((∀ years, ParsedWhole utc years) ∧ ∀ done pass, done ++ [pass] <+: [lastOfAugust, firstOfSeptember] →
      Cached utc (fun _ => true) done pass) := by
  refine ⟨by decide +kernel, fun ⟨_, h⟩ => ?_⟩
  have haccepted : (firstOfSeptember.accepted utc).isSome = true := by decide +kernel
  have hwritten := (h [lastOfAugust] firstOfSeptember (List.prefix_refl _)).written haccepted
  have hrefused : (refresh utc (fun _ => true) firstOfSeptember
      (cacheAfter utc (fun _ => true) [lastOfAugust])).isSome = false := by decide +kernel
  rw [hrefused] at hwritten
  cases hwritten

end Home.Agenda.SchoolHolidays
