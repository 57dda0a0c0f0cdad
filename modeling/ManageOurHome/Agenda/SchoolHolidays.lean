import Mathlib.Data.Char
import Mathlib.Data.List.Lex
import Mathlib.Data.Prod.Lex
import ManageOurHome.Error
import ManageOurHome.Json
import ManageOurHome.Lib.OrderedMap
import ManageOurHome.Time

/-! @src apps/api/src/agenda/school_holidays.rs | layer:model | family:national days

    The school holidays of zones A, B and C in two school years, as the open data gives them: a row for each period and
    each population, as often as the académies repeat it. A day is a number of days from 1970-01-01.

        zones: Zone A   population: -   start_date: 17 October   end_date: 2 November
            ──▶   A, from 17 October to 1 November

    What `chrono` reads in a timestamp and the Paris day of an instant are parameters. -/

namespace Home.Agenda.SchoolHolidays

open Json OrderedMap

/-! ### School years -/

/-- The calendar year a school year starts in. -/
def firstYear (day : NaiveDate) : ℤ := if 9 ≤ day.month then day.year else day.year - 1

/-- `{}` of an `i32`. -/
def decimal (n : ℤ) : Text := (if n < 0 then ['-'] else []) ++ Nat.toDigits 10 n.natAbs

/-- `{first}-{first + 1}`. -/
def yearText (first : ℤ) : Text := decimal first ++ '-' :: decimal (first + 1)

/-- The current school year and the next. -/
abbrev Years := Text × Text

def schoolYears (today : NaiveDate) : Years := (yearText (firstYear today), yearText (firstYear today + 1))

def Years.asked (years : Years) (year : Text) : Bool := year = years.1 ∨ year = years.2

/-! ### Periods -/

inductive SchoolZone where
  | A | B | C
  deriving DecidableEq

def SchoolZone.ALL : List SchoolZone := [.A, .B, .C]

def SchoolZone.asStr : SchoolZone → Text
  | .A => ['A']
  | .B => ['B']
  | .C => ['C']

def SchoolZone.parse (value : Text) : Option SchoolZone := SchoolZone.ALL.find? fun z => z.asStr = value

structure SchoolHoliday where
  zone : SchoolZone
  label : Text
  startsOn : ℤ
  endsOn : ℤ
  schoolYear : Text
  deriving DecidableEq

/-- Zone, first day and label: the order served. -/
abbrev PeriodKey := Text ×ₗ ℤ ×ₗ Text

instance : DecidableEq PeriodKey := inferInstance

def SchoolHoliday.key (p : SchoolHoliday) : PeriodKey := toLex (p.zone.asStr, toLex (p.startsOn, p.label))

inductive CalendarError where
  | UnexpectedShape
  | Truncated (total returned : ℕ)
  | BadField (row : ℕ) (field : Text)
  | EndBeforeStart (row : ℕ)
  | Conflict (zone : SchoolZone) (label : Text) (startsOn : ℤ)
  | MissingZone (zone : SchoolZone) (schoolYear : Text)
  deriving DecidableEq

/-! ### An answer -/

def KEPT_POPULATIONS : List Text := ["-".toList, "Élèves".toList]

/-- `chrono`, and `paris_day` by its zone table. -/
structure Chrono where
  parseFromRfc3339 : Text → Option ℤ
  parisDay : ℤ → ℤ

variable (chrono : Chrono)

def stringAt (row : Value) (field : Text) : Option Text := (row.get field).bind Value.asStr

def text (index : ℕ) (row : Value) (field : Text) : Except CalendarError Text :=
  match stringAt row field with
  | some t => .ok t
  | none => .error (.BadField index field)

def dayAt (row : Value) (field : Text) : Option ℤ :=
  ((stringAt row field).bind chrono.parseFromRfc3339).map chrono.parisDay

def day (index : ℕ) (row : Value) (field : Text) : Except CalendarError ℤ :=
  match dayAt chrono row field with
  | some d => .ok d
  | none => .error (.BadField index field)

/-- The period of a row, `none` for a row that is left out. -/
def readRow (years : Years) (index : ℕ) (row : Value) : Except CalendarError (Option SchoolHoliday) := do
  let zones ← text index row "zones".toList
  match (stripPrefix "Zone ".toList zones).bind SchoolZone.parse with
  | none => .ok none
  | some zone =>
    let schoolYear ← text index row "annee_scolaire".toList
    if years.asked schoolYear then
      let population ← text index row "population".toList
      if population ∈ KEPT_POPULATIONS then
        let description ← text index row "description".toList
        let label := trim description
        if label = [] then .error (.BadField index "description".toList)
        else if "Pont".toList.isPrefixOf label then .ok none
        else
          let startsOn ← day chrono index row "start_date".toList
          let resumesOn ← day chrono index row "end_date".toList
          if resumesOn < startsOn then .error (.EndBeforeStart index)
          else
            let endsOn := if resumesOn = startsOn then startsOn else resumesOn - 1
            .ok (some ⟨zone, label, startsOn, endsOn, schoolYear⟩)
      else .ok none
    else .ok none

/-- The rows from the one of an index on, onto the periods of those before. -/
def readRows (years : Years) : ℕ → List Value → OMap SchoolHoliday.key → Except CalendarError (OMap SchoolHoliday.key)
  | _, [], periods => .ok periods
  | index, row :: rows, periods => do
    match ← readRow chrono years index row with
    | none => readRows years (index + 1) rows periods
    | some period =>
      match periods.get period.key with
      | none => readRows years (index + 1) rows (periods.insert period)
      | some seen =>
        if seen = period then readRows years (index + 1) rows periods
        else .error (.Conflict period.zone period.label period.startsOn)

def results (body : Value) : Option (List Value) := (body.get "results".toList).bind Value.asArray

def totalCount (body : Value) : Option ℕ := (body.get "total_count".toList).bind Value.asU64

def parseCalendar (body : Value) (years : Years) : Except CalendarError (List SchoolHoliday) :=
  match results body with
  | none => .error .UnexpectedShape
  | some rows =>
    match (totalCount body).filter (rows.length < ·) with
    | some total => .error (.Truncated total rows.length)
    | none => do
      let periods ← readRows chrono years 0 rows OMap.empty
      match SchoolZone.ALL.find? fun zone => !periods.values.any fun p => p.zone = zone ∧ p.schoolYear = years.1 with
      | some zone => .error (.MissingZone zone years.1)
      | none => .ok periods.values

/-! ### What a row says -/

/-- A row of the pupils' periods, bridges aside. -/
structure Kept (years : Years) (row : Value) (zone : SchoolZone) (label schoolYear : Text) (startsOn resumesOn : ℤ) :
    Prop where
  ofZone : stringAt row "zones".toList = some ("Zone ".toList ++ zone.asStr)
  ofYear : stringAt row "annee_scolaire".toList = some schoolYear
  asked : years.asked schoolYear = true
  pupils : ∃ population ∈ KEPT_POPULATIONS, stringAt row "population".toList = some population
  labelled : (stringAt row "description".toList).map trim = some label
  named : label ≠ []
  no_bridge : ¬"Pont".toList <+: label
  starts : dayAt chrono row "start_date".toList = some startsOn
  resumes : dayAt chrono row "end_date".toList = some resumesOn

/-- The period of a kept row: it ends the day before classes resume, or on its first day where the end is not out. -/
def Gives (years : Years) (row : Value) (p : SchoolHoliday) : Prop :=
  ∃ resumesOn, Kept chrono years row p.zone p.label p.schoolYear p.startsOn resumesOn ∧ p.startsOn ≤ resumesOn ∧
    p.endsOn = if resumesOn = p.startsOn then p.startsOn else resumesOn - 1

/-- A row of another zone or year, of the teachers, or of a bridge. -/
inductive LeftOut (years : Years) (row : Value) : Prop where
  | zone {zones : Text} (hzones : stringAt row "zones".toList = some zones)
    (h : ∀ zone : SchoolZone, zones ≠ "Zone ".toList ++ zone.asStr)
  | year {zone : SchoolZone} {year : Text} (hzones : stringAt row "zones".toList = some ("Zone ".toList ++ zone.asStr))
    (hyear : stringAt row "annee_scolaire".toList = some year) (h : years.asked year = false)
  | population {zone : SchoolZone} {year population : Text}
    (hzones : stringAt row "zones".toList = some ("Zone ".toList ++ zone.asStr))
    (hyear : stringAt row "annee_scolaire".toList = some year) (hasked : years.asked year = true)
    (hpopulation : stringAt row "population".toList = some population) (h : population ∉ KEPT_POPULATIONS)
  | bridge {zone : SchoolZone} {year population description : Text}
    (hzones : stringAt row "zones".toList = some ("Zone ".toList ++ zone.asStr))
    (hyear : stringAt row "annee_scolaire".toList = some year) (hasked : years.asked year = true)
    (hpopulation : stringAt row "population".toList = some population) (hkept : population ∈ KEPT_POPULATIONS)
    (hdescription : stringAt row "description".toList = some description) (h : "Pont".toList <+: trim description)

/-! ### What is read of a row -/

variable {chrono} {years : Years} {index : ℕ} {row : Value} {field t : Text} {d : ℤ} {p q : SchoolHoliday}

theorem text_eq_ok : text index row field = .ok t ↔ stringAt row field = some t := by
  rw [text]
  split
  · rename_i heq
    rw [heq, Except.ok.injEq, Option.some.injEq]
  · rename_i heq
    simp [heq]

theorem day_eq_ok : day chrono index row field = .ok d ↔ dayAt chrono row field = some d := by
  rw [day]
  split
  · rename_i heq
    rw [heq, Except.ok.injEq, Option.some.injEq]
  · rename_i heq
    simp [heq]

theorem parse_eq_some {value : Text} {zone : SchoolZone} : SchoolZone.parse value = some zone ↔ value = zone.asStr := by
  constructor
  · intro h
    have hfound : zone.asStr = value := by simpa using List.find?_some h
    exact hfound.symm
  · rintro rfl
    cases zone <;> decide

theorem zone_eq_some {zones : Text} {zone : SchoolZone} :
    (stripPrefix "Zone ".toList zones).bind SchoolZone.parse = some zone ↔ zones = "Zone ".toList ++ zone.asStr := by
  rw [Option.bind_eq_some_iff]
  constructor
  · rintro ⟨value, hstrip, hparse⟩
    rw [← parse_eq_some.mp hparse]
    exact stripPrefix_eq_some.mp hstrip
  · rintro rfl
    exact ⟨_, stripPrefix_append _ _, parse_eq_some.mpr rfl⟩

theorem zone_eq_none {zones : Text} : (stripPrefix "Zone ".toList zones).bind SchoolZone.parse = none ↔
    ∀ zone : SchoolZone, zones ≠ "Zone ".toList ++ zone.asStr := by
  rw [Option.eq_none_iff_forall_ne_some]
  exact forall_congr' fun zone => not_congr zone_eq_some

theorem readRow_eq_some : readRow chrono years index row = .ok (some p) ↔ Gives chrono years row p := by
  constructor
  · intro h
    rw [readRow] at h
    obtain ⟨zones, hzones, h⟩ := bind_eq_ok.mp h
    split at h
    · cases h
    · rename_i zone hzone
      obtain ⟨year, hyear, h⟩ := bind_eq_ok.mp h
      split at h
      · rename_i hasked
        obtain ⟨population, hpopulation, h⟩ := bind_eq_ok.mp h
        split at h
        · rename_i hkept
          obtain ⟨description, hdescription, h⟩ := bind_eq_ok.mp h
          dsimp only at h
          split at h
          · cases h
          · rename_i hnamed
            split at h
            · cases h
            · rename_i hbridge
              obtain ⟨startsOn, hstarts, h⟩ := bind_eq_ok.mp h
              obtain ⟨resumesOn, hresumes, h⟩ := bind_eq_ok.mp h
              split at h
              · cases h
              · rename_i horder
                obtain rfl := Option.some.inj (Except.ok.inj h)
                exact ⟨resumesOn, {
                  ofZone := by rw [text_eq_ok.mp hzones, zone_eq_some.mp hzone]
                  ofYear := text_eq_ok.mp hyear
                  asked := hasked
                  pupils := ⟨population, hkept, text_eq_ok.mp hpopulation⟩
                  labelled := by rw [text_eq_ok.mp hdescription, Option.map_some]
                  named := hnamed
                  no_bridge := fun hp => hbridge (List.isPrefixOf_iff_prefix.mpr hp)
                  starts := day_eq_ok.mp hstarts
                  resumes := day_eq_ok.mp hresumes }, not_lt.mp horder, rfl⟩
        · cases h
      · cases h
  · rintro ⟨resumesOn, hkept, horder, hends⟩
    obtain ⟨population, hmem, hpopulation⟩ := hkept.pupils
    obtain ⟨description, hdescription, hlabel⟩ := Option.map_eq_some_iff.mp hkept.labelled
    rw [readRow]
    refine bind_eq_ok.mpr ⟨_, text_eq_ok.mpr hkept.ofZone, ?_⟩
    rw [zone_eq_some.mpr rfl]
    refine bind_eq_ok.mpr ⟨_, text_eq_ok.mpr hkept.ofYear, ?_⟩
    rw [if_pos hkept.asked]
    refine bind_eq_ok.mpr ⟨_, text_eq_ok.mpr hpopulation, ?_⟩
    rw [if_pos hmem]
    refine bind_eq_ok.mpr ⟨_, text_eq_ok.mpr hdescription, ?_⟩
    dsimp only
    rw [hlabel, if_neg hkept.named, if_neg fun h => hkept.no_bridge (List.isPrefixOf_iff_prefix.mp h)]
    refine bind_eq_ok.mpr ⟨_, day_eq_ok.mpr hkept.starts, bind_eq_ok.mpr ⟨_, day_eq_ok.mpr hkept.resumes, ?_⟩⟩
    rw [if_neg (not_lt.mpr horder), ← hends]

theorem readRow_eq_none : readRow chrono years index row = .ok none ↔ LeftOut years row := by
  constructor
  · intro h
    rw [readRow] at h
    obtain ⟨zones, hzones, h⟩ := bind_eq_ok.mp h
    have hzones := text_eq_ok.mp hzones
    split at h
    · rename_i hzone
      exact .zone hzones (zone_eq_none.mp hzone)
    · rename_i zone hzone
      rw [zone_eq_some.mp hzone] at hzones
      obtain ⟨year, hyear, h⟩ := bind_eq_ok.mp h
      have hyear := text_eq_ok.mp hyear
      split at h
      · rename_i hasked
        obtain ⟨population, hpopulation, h⟩ := bind_eq_ok.mp h
        have hpopulation := text_eq_ok.mp hpopulation
        split at h
        · rename_i hkept
          obtain ⟨description, hdescription, h⟩ := bind_eq_ok.mp h
          dsimp only at h
          split at h
          · cases h
          · split at h
            · rename_i hbridge
              exact .bridge hzones hyear hasked hpopulation hkept (text_eq_ok.mp hdescription)
                (List.isPrefixOf_iff_prefix.mp hbridge)
            · obtain ⟨startsOn, -, h⟩ := bind_eq_ok.mp h
              obtain ⟨resumesOn, -, h⟩ := bind_eq_ok.mp h
              split at h
              · cases h
              · cases h
        · rename_i hother
          exact .population hzones hyear hasked hpopulation hother
      · rename_i hother
        exact .year hzones hyear (Bool.eq_false_iff.mpr hother)
  · intro h
    rw [readRow]
    cases h with
    | zone hzones h =>
      refine bind_eq_ok.mpr ⟨_, text_eq_ok.mpr hzones, ?_⟩
      rw [zone_eq_none.mpr h]
    | year hzones hyear h =>
      refine bind_eq_ok.mpr ⟨_, text_eq_ok.mpr hzones, ?_⟩
      rw [zone_eq_some.mpr rfl]
      refine bind_eq_ok.mpr ⟨_, text_eq_ok.mpr hyear, ?_⟩
      rw [if_neg (Bool.eq_false_iff.mp h)]
    | population hzones hyear hasked hpopulation h =>
      refine bind_eq_ok.mpr ⟨_, text_eq_ok.mpr hzones, ?_⟩
      rw [zone_eq_some.mpr rfl]
      refine bind_eq_ok.mpr ⟨_, text_eq_ok.mpr hyear, ?_⟩
      rw [if_pos hasked]
      refine bind_eq_ok.mpr ⟨_, text_eq_ok.mpr hpopulation, ?_⟩
      rw [if_neg h]
    | bridge hzones hyear hasked hpopulation hkept hdescription h =>
      refine bind_eq_ok.mpr ⟨_, text_eq_ok.mpr hzones, ?_⟩
      rw [zone_eq_some.mpr rfl]
      refine bind_eq_ok.mpr ⟨_, text_eq_ok.mpr hyear, ?_⟩
      rw [if_pos hasked]
      refine bind_eq_ok.mpr ⟨_, text_eq_ok.mpr hpopulation, ?_⟩
      rw [if_pos hkept]
      refine bind_eq_ok.mpr ⟨_, text_eq_ok.mpr hdescription, ?_⟩
      dsimp only
      have hnamed : trim _ ≠ [] := fun hnil => absurd (List.prefix_nil.mp (hnil ▸ h)) (by decide)
      rw [if_neg hnamed, if_pos (List.isPrefixOf_iff_prefix.mpr h)]

theorem Gives.unique (hp : Gives chrono years row p) (hq : Gives chrono years row q) : p = q := by
  have hread : readRow chrono years 0 row = .ok (some p) := readRow_eq_some.mpr hp
  exact Option.some.inj (Except.ok.inj (hread.symm.trans (readRow_eq_some.mpr hq)))

theorem LeftOut.not_gives (h : LeftOut years row) : ¬Gives chrono years row p := by
  intro hp
  have hread : readRow chrono years 0 row = .ok none := readRow_eq_none.mpr h
  cases hread.symm.trans (readRow_eq_some.mpr hp)

/-! ### The periods of an answer -/

/-- A row that does not fail the answer. -/
def Sound (chrono : Chrono) (years : Years) (row : Value) : Prop := LeftOut years row ∨ ∃ p, Gives chrono years row p

/-- A period of one of the rows. -/
def Given (chrono : Chrono) (years : Years) (rows : List Value) (p : SchoolHoliday) : Prop :=
  ∃ row ∈ rows, Gives chrono years row p

variable {rows : List Value} {periods after : OMap SchoolHoliday.key}

theorem given_cons : Given chrono years (row :: rows) p ↔ Gives chrono years row p ∨ Given chrono years rows p := by
  simp [Given]

theorem sound_iff : Sound chrono years row ↔ ∃ o, readRow chrono years index row = .ok o := by
  constructor
  · rintro (h | ⟨p, h⟩)
    · exact ⟨none, readRow_eq_none.mpr h⟩
    · exact ⟨some p, readRow_eq_some.mpr h⟩
  · rintro ⟨_ | p, h⟩
    · exact .inl (readRow_eq_none.mp h)
    · exact .inr ⟨p, readRow_eq_some.mp h⟩

theorem readRows_eq_ok : readRows chrono years index rows periods = .ok after ↔ (∀ row ∈ rows, Sound chrono years row) ∧
    ∀ p, p ∈ after.values ↔ p ∈ periods.values ∨ Given chrono years rows p := by
  induction rows generalizing index periods with
  | nil =>
    rw [readRows, Except.ok.injEq]
    constructor
    · rintro rfl
      simp [Given]
    · rintro ⟨-, h⟩
      exact OMap.ext_mem fun p => by simp [h, Given]
  | cons row rows ih =>
    rw [readRows, List.forall_mem_cons]
    cases hread : readRow chrono years index row with
    | error e =>
      refine iff_of_false (by simp [bind, Except.bind]) fun h => ?_
      obtain ⟨o, ho⟩ : ∃ o, readRow chrono years index row = .ok o := sound_iff.mp h.1.1
      rw [hread] at ho
      cases ho
    | ok o =>
      have hsound : Sound chrono years row := sound_iff.mpr ⟨o, hread⟩
      rw [and_iff_right hsound]
      simp only [bind, Except.bind]
      cases o with
      | none =>
        have hleft := readRow_eq_none.mp hread
        have hgiven : ∀ p, Given chrono years (row :: rows) p ↔ Given chrono years rows p := fun p => by
          rw [given_cons, or_iff_right hleft.not_gives]
        simp only [hgiven]
        exact ih
      | some period =>
        have hgives := readRow_eq_some.mp hread
        have hgiven : ∀ p, Given chrono years (row :: rows) p ↔ p = period ∨ Given chrono years rows p := fun p => by
          rw [given_cons]
          exact or_congr_left ⟨fun h => h.unique hgives, fun h => h ▸ hgives⟩
        simp only [hgiven]
        cases hget : periods.get period.key with
        | none =>
          dsimp only
          rw [ih]
          refine and_congr_right fun _ => forall_congr' fun p => ?_
          rw [OMap.mem_insert hget, or_left_comm, ← or_assoc]
        | some seen =>
          obtain ⟨hseen, hkey⟩ := OMap.get_eq_some.mp hget
          dsimp only
          split
          · rename_i heq
            rw [ih]
            refine and_congr_right fun _ => forall_congr' fun p => ?_
            have habsorb : p = period ∨ p ∈ periods.values ↔ p ∈ periods.values :=
              or_iff_right_of_imp fun h => h ▸ heq ▸ hseen
            rw [or_left_comm, ← or_assoc, habsorb]
          · rename_i hne
            refine iff_of_false (by simp) fun h => hne ?_
            -- both would be periods of the answer, under one key
            exact after.key_inj ((h.2 seen).mpr (.inl hseen)) ((h.2 period).mpr (.inr (.inl rfl))) hkey

/-- An answer that is accepted, and its periods. -/
structure Accepted (chrono : Chrono) (body : Value) (years : Years) (accepted : List SchoolHoliday) : Prop where
  increasing : accepted.Pairwise fun p q => p.key < q.key
  whole : ∃ rows, results body = some rows ∧ (∀ total ∈ totalCount body, total ≤ rows.length) ∧
    (∀ row ∈ rows, Sound chrono years row) ∧ ∀ p, p ∈ accepted ↔ Given chrono years rows p
  zones : ∀ zone : SchoolZone, ∃ p ∈ accepted, p.zone = zone ∧ p.schoolYear = years.1

variable {body body' : Value} {accepted : List SchoolHoliday}

theorem missing_eq_none : (SchoolZone.ALL.find? fun zone =>
      !accepted.any fun p => p.zone = zone ∧ p.schoolYear = years.1) = none ↔
    ∀ zone : SchoolZone, ∃ p ∈ accepted, p.zone = zone ∧ p.schoolYear = years.1 := by
  have hall : ∀ zone : SchoolZone, zone ∈ SchoolZone.ALL := fun zone => by cases zone <;> decide
  rw [List.find?_eq_none]
  constructor
  · intro h zone
    simpa using h zone (hall zone)
  · intro h zone _
    simpa using h zone

theorem parseCalendar_eq_ok : parseCalendar chrono body years = .ok accepted ↔ Accepted chrono body years accepted := by
  rw [parseCalendar]
  cases hrows : results body with
  | none =>
    refine iff_of_false (by simp) fun h => ?_
    obtain ⟨rows, hsome, -⟩ := h.whole
    rw [hrows] at hsome
    cases hsome
  | some rows =>
    dsimp only
    cases hfilter : (totalCount body).filter (rows.length < ·) with
    | some total =>
      obtain ⟨hcount, hlt⟩ := Option.filter_eq_some_iff.mp hfilter
      refine iff_of_false (by simp) fun h => ?_
      obtain ⟨rows', hrows', htotal, -⟩ := h.whole
      obtain rfl : rows = rows' := Option.some.inj (hrows.symm.trans hrows')
      exact absurd (htotal total hcount) (not_le.mpr (of_decide_eq_true hlt))
    | none =>
      have htotal : ∀ total ∈ totalCount body, total ≤ rows.length := fun total ht =>
        not_lt.mp fun hlt => Option.filter_eq_none_iff.mp hfilter total ht (decide_eq_true hlt)
      dsimp only
      rw [bind_eq_ok]
      constructor
      · rintro ⟨periods, hread, h⟩
        obtain ⟨hsound, hmem⟩ := readRows_eq_ok.mp hread
        split at h
        · cases h
        · rename_i hmissing
          obtain rfl := Except.ok.inj h
          refine ⟨periods.increasing, ⟨rows, hrows, htotal, hsound, fun p => ?_⟩, missing_eq_none.mp hmissing⟩
          rw [hmem]
          exact or_iff_right (List.not_mem_nil)
      · rintro ⟨hincreasing, ⟨rows', hrows', -, hsound, hmem⟩, hzones⟩
        obtain rfl : rows = rows' := Option.some.inj (hrows.symm.trans hrows')
        refine ⟨⟨accepted, hincreasing⟩, readRows_eq_ok.mpr ⟨hsound, fun p => ?_⟩, ?_⟩
        · rw [hmem]
          exact (or_iff_right (List.not_mem_nil)).symm
        · dsimp only
          rw [missing_eq_none.mpr hzones]

/-- Neither the order of the rows nor their repetition counts, as long as `total_count` follows. -/
theorem parseCalendar_rows {rows rows' : List Value} (hrows : results body = some rows)
    (hrows' : results body' = some rows') (hsame : ∀ row, row ∈ rows ↔ row ∈ rows')
    (htotal : (∀ total ∈ totalCount body, total ≤ rows.length) ↔ ∀ total ∈ totalCount body', total ≤ rows'.length) :
    parseCalendar chrono body years = .ok accepted ↔ parseCalendar chrono body' years = .ok accepted := by
  have hgiven : ∀ p, Given chrono years rows p ↔ Given chrono years rows' p := fun p => by simp only [Given, hsame]
  rw [parseCalendar_eq_ok, parseCalendar_eq_ok]
  constructor
  · rintro ⟨hincreasing, ⟨r, hr, hcount, hsound, hmem⟩, hzones⟩
    obtain rfl : rows = r := Option.some.inj (hrows.symm.trans hr)
    exact ⟨hincreasing, ⟨rows', hrows', htotal.mp hcount, fun row h => hsound row ((hsame row).mpr h), fun p =>
      (hmem p).trans (hgiven p)⟩, hzones⟩
  · rintro ⟨hincreasing, ⟨r, hr, hcount, hsound, hmem⟩, hzones⟩
    obtain rfl : rows' = r := Option.some.inj (hrows'.symm.trans hr)
    exact ⟨hincreasing, ⟨rows, hrows, htotal.mpr hcount, fun row h => hsound row ((hsame row).mp h), fun p =>
      (hmem p).trans (hgiven p).symm⟩, hzones⟩

theorem Gives.startsOn_le (h : Gives chrono years row p) : p.startsOn ≤ p.endsOn := by
  obtain ⟨resumesOn, -, horder, hends⟩ := h
  rw [hends]
  split
  · exact le_rfl
  · omega

end Home.Agenda.SchoolHolidays
