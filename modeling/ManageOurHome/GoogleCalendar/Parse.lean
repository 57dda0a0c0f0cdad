import ManageOurHome.GoogleCalendar.Repair
import ManageOurHome.Lib.Grouped
import ManageOurHome.Text

/-! @src apps/api/src/google_calendar/parse.rs | layer:model | family:imports

    The events of a feed. An entry with a UID and a start that is not cancelled gives an event, in the place of the one
    its UID already gave. A time without an instant, of a zone the crate does not know or of an hour its clocks skip or
    repeat, is read as the time of the reading. The `icalendar` crate is not part of the repository: `Icalendar` is what
    the code asks of it.

        UID:a 9 h    UID:b 10 h    UID:a 11 h    UID:c cancelled        ⇒   a 11 h   b 10 h -/

namespace Home.GoogleCalendar

open Agenda

/-! ### The crate -/

/-- A date-time of a feed: of no zone, of UTC, or of a zone by its name. -/
inductive CalendarDateTime where
  | Floating (wall : ℤ)
  | Utc (t : ℤ)
  | WithTimezone (wall : ℤ) (tzid : Text)
  deriving DecidableEq

/-- A date is its number of days since the epoch. -/
inductive DatePerhapsTime where
  | DateTime (dt : CalendarDateTime)
  | Date (date : ℤ)
  deriving DecidableEq

inductive EventStatus where
  | Tentative | Confirmed | Cancelled
  deriving DecidableEq

/-- A VEVENT, by what the code asks of it. -/
structure Event where
  uid : Option Text
  start : Option DatePerhapsTime
  end_ : Option DatePerhapsTime
  status : Option EventStatus
  summary : Option Text
  description : Option Text
  location : Option Text
  lastModified : Option ℤ
  timestamp : Option ℤ
  deriving DecidableEq

inductive CalendarComponent where
  | Event (event : Event)
  | other
  deriving DecidableEq

structure Icalendar where
  parse : Text → Option (List CalendarComponent)
  tryIntoUtc : CalendarDateTime → Option ℤ

/-! ### The reading -/

@[ext] structure ParsedEvent where
  externalUid : Text
  title : Text
  description : Option Text
  location : Option Text
  startsAt : ℤ
  endsAt : ℤ
  allDay : Bool
  externalUpdatedAt : Option ℤ
  deriving DecidableEq

inductive ParseError where
  | InvalidIcs
  deriving DecidableEq

def dateToUtcMidnight (date : ℤ) : ℤ := date * day

def UNTITLED : Text := "(untitled)".toList

def feedTitle : Option Text → Text
  | some s => if trim s ≠ [] then s else UNTITLED
  | none => UNTITLED

variable (crate : Icalendar) (now : ℤ)

def resolve : DatePerhapsTime → ℤ
  | .DateTime dt => (crate.tryIntoUtc dt).getD now
  | .Date date => dateToUtcMidnight date

def isDate : DatePerhapsTime → Bool
  | .Date _ => true
  | .DateTime _ => false

/-- The event of an entry. -/
def parsed (uid : Text) (start : DatePerhapsTime) (event : Event) : ParsedEvent where
  externalUid := uid
  title := feedTitle event.summary
  description := event.description
  location := event.location
  startsAt := resolve crate now start
  endsAt := ((event.end_.map (resolve crate now)).filter (resolve crate now start ≤ ·)).getD (resolve crate now start)
  allDay := isDate start
  externalUpdatedAt := event.lastModified <|> event.timestamp

/-- In the place of the event of its UID, or at the end. -/
def put (x : ParsedEvent) : List ParsedEvent → List ParsedEvent
  | [] => [x]
  | existing :: events => if existing.externalUid = x.externalUid then x :: events else existing :: put x events

def parseComponent (events : List ParsedEvent) : CalendarComponent → List ParsedEvent
  | .other => events
  | .Event event =>
    match event.uid with
    | none => events
    | some uid =>
      match event.start with
      | none => events
      | some start => if event.status = some .Cancelled then events else put (parsed crate now uid start event) events

/-- `parse_ics`, at the time `now`. -/
def parseIcs (body : Text) : Except ParseError (List ParsedEvent) :=
  match crate.parse body with
  | none => .error .InvalidIcs
  | some components => .ok (components.foldl (parseComponent crate now) [])

/-! ### What a feed says -/

/-- An entry that gives an event. -/
structure Entry where
  uid : Text
  start : DatePerhapsTime
  event : Event
  deriving DecidableEq

def entryOf : CalendarComponent → Option Entry
  | .other => none
  | .Event event =>
    match event.uid, event.start with
    | some uid, some start => if event.status = some .Cancelled then none else some ⟨uid, start, event⟩
    | _, _ => none

/-- Those with a UID and a start that are not cancelled, in document order. -/
def entries (components : List CalendarComponent) : List Entry := components.filterMap entryOf

/-- The last of its UID. -/
def IsLast (components : List CalendarComponent) (entry : Entry) : Prop :=
  ((entries components).filter fun other => other.uid = entry.uid).getLast? = some entry

/-- The instant of a date-time, `zones` giving the wall clock of a zone by its name. -/
def CalendarDateTime.Denotes (zones : Text → Option (ℤ → ℤ)) : CalendarDateTime → ℤ → Prop
  | .Floating _, _ => False
  | .Utc u, t => t = u
  | .WithTimezone wall tzid, t => ∃ wallAt, zones tzid = some wallAt ∧ wallAt t = wall ∧ ∀ t', wallAt t' = wall → t' = t

def DatePerhapsTime.Denotes (zones : Text → Option (ℤ → ℤ)) : DatePerhapsTime → ℤ → Prop
  | .DateTime dt, t => dt.Denotes zones t
  | .Date date, t => t = date * day

/-- An event stands where its entry says. -/
structure PlacedAs (zones : Text → Option (ℤ → ℤ)) (paris : Paris) (x : ParsedEvent) (entry : Entry) : Prop where
  texts : x.externalUid = entry.uid ∧ x.title = feedTitle entry.event.summary ∧
    x.description = entry.event.description ∧ x.location = entry.event.location ∧
    x.externalUpdatedAt = (entry.event.lastModified <|> entry.event.timestamp)
  start : entry.start.Denotes zones x.startsAt
  allDay : x.allDay = true ↔ ∃ date, entry.start = .Date date
  /-- Its end is that of the entry, or its start, when the entry has none, or one of no instant or before the start. -/
  ends : (∃ end_ t, entry.event.end_ = some end_ ∧ end_.Denotes zones t ∧ x.startsAt ≤ t ∧ x.endsAt = t) ∨
    ((∀ end_ t, entry.event.end_ = some end_ → end_.Denotes zones t → t < x.startsAt) ∧ x.endsAt = x.startsAt)
  ordered : x.startsAt ≤ x.endsAt
  bounds : (importBounds paris x.allDay x.startsAt x.endsAt).1 ≤ (importBounds paris x.allDay x.startsAt x.endsAt).2
  wholeDays : x.allDay = true → paris.normalizeAllDay (importBounds paris x.allDay x.startsAt x.endsAt).1
    (importBounds paris x.allDay x.startsAt x.endsAt).2 = importBounds paris x.allDay x.startsAt x.endsAt

/-- The events are those of the last entry of each UID, those of no instant left out. -/
structure Places (zones : Text → Option (ℤ → ℤ)) (paris : Paris) (components : List CalendarComponent)
    (events : List ParsedEvent) : Prop where
  once : (events.map ParsedEvent.externalUid).Nodup
  last : ∀ x ∈ events, ∃ entry, IsLast components entry ∧ PlacedAs zones paris x entry
  kept : ∀ entry, IsLast components entry → (∃ t, entry.start.Denotes zones t) → ∃ x ∈ events, x.externalUid = entry.uid

/-! ### The events of the last entries -/

section Latest

variable {crate : Icalendar} {now : ℤ} {components : List CalendarComponent} {entry entry' : Entry}

def Entry.parsed (crate : Icalendar) (now : ℤ) (entry : Entry) : ParsedEvent :=
  GoogleCalendar.parsed crate now entry.uid entry.start entry.event

theorem parseComponent_eq (events : List ParsedEvent) (component : CalendarComponent) :
    parseComponent crate now events component =
      (entryOf component).elim events fun entry => put (entry.parsed crate now) events := by
  cases component with
  | other => rfl
  | Event event =>
    rw [parseComponent, entryOf]
    cases event.uid with
    | none => rfl
    | some uid =>
      cases event.start with
      | none => rfl
      | some start =>
        dsimp only
        split
        · rfl
        · rfl

/-- The entries by their UID, each time with the last read. -/
def lastEntries (components : List CalendarComponent) : List (Text × Entry) :=
  Grouped.groups Entry.uid id (fun _ entry => entry) (entries components)

def Keyed (gs : List (Text × Entry)) : Prop := ∀ g ∈ gs, g.1 = g.2.uid

theorem keyed_lastEntries (components : List CalendarComponent) : Keyed (lastEntries components) := by
  rintro ⟨uid, entry⟩ h
  obtain ⟨first, rest, hof, rfl⟩ := Grouped.mem_groups.mp h
  have hmem : rest.foldl (fun _ entry => entry) first ∈ first :: rest := by
    clear hof h
    induction rest generalizing first with
    | nil => exact List.mem_cons_self
    | cons entry rest ih => exact List.mem_cons_of_mem _ (ih entry)
  exact (Grouped.key_of_mem_ofKey (hof ▸ hmem)).2.symm

theorem put_map {gs : List (Text × Entry)} (h : Keyed gs) (entry : Entry) :
    put (entry.parsed crate now) (gs.map fun g => g.2.parsed crate now) =
      (Grouped.into Entry.uid id (fun _ entry => entry) entry gs).map fun g => g.2.parsed crate now := by
  induction gs with
  | nil => rfl
  | cons g gs ih =>
    obtain ⟨uid, existing⟩ := g
    obtain ⟨hkey, hrest⟩ := List.forall_mem_cons.mp h
    obtain rfl : uid = existing.uid := hkey
    have huid : ∀ e : Entry, (e.parsed crate now).externalUid = e.uid := fun _ => rfl
    rw [List.map_cons, put, Grouped.into, huid, huid]
    split
    · rfl
    · rw [ih hrest]
      rfl

/-- What is read is the events of the last entries, whenever it is. -/
theorem foldl_parseComponent (components : List CalendarComponent) :
    components.foldl (parseComponent crate now) [] = (lastEntries components).map fun g => g.2.parsed crate now := by
  induction components using List.reverseRecOn with
  | nil => rfl
  | append_singleton components component ih =>
    have hentries : entries (components ++ [component]) = entries components ++ (entryOf component).toList := by
      rw [entries, List.filterMap_append]
      cases hentry : entryOf component with
      | none => rw [List.filterMap_cons_none hentry]; rfl
      | some entry => rw [List.filterMap_cons_some hentry]; rfl
    rw [List.foldl_append, List.foldl_cons, List.foldl_nil, ih, parseComponent_eq]
    have hlast : lastEntries (components ++ [component]) = Grouped.groups Entry.uid id (fun _ entry => entry)
        (entries components ++ (entryOf component).toList) := by rw [lastEntries, hentries]
    rw [hlast]
    cases entryOf component with
    | none =>
      rw [Option.toList_none, List.append_nil]
      rfl
    | some entry =>
      rw [Option.toList_some, Grouped.groups_concat]
      exact put_map (keyed_lastEntries components) entry

theorem getLast?_cons_eq (first : Entry) (rest : List Entry) :
    (first :: rest).getLast? = some (rest.foldl (fun _ entry => entry) first) := by
  induction rest generalizing first with
  | nil => rfl
  | cons entry rest ih => rw [List.getLast?_cons_cons, ih, List.foldl_cons]

theorem mem_lastEntries : (∃ g ∈ lastEntries components, g.2 = entry) ↔ IsLast components entry := by
  constructor
  · rintro ⟨⟨uid, entry⟩, h, rfl⟩
    obtain rfl : uid = entry.uid := keyed_lastEntries components _ h
    obtain ⟨first, rest, hof, hentry⟩ := Grouped.mem_groups.mp h
    change (Grouped.ofKey Entry.uid entry.uid (entries components)).getLast? = some entry
    rw [hof, getLast?_cons_eq]
    exact congrArg some hentry.symm
  · intro h
    change (Grouped.ofKey Entry.uid entry.uid (entries components)).getLast? = some entry at h
    cases hof : Grouped.ofKey Entry.uid entry.uid (entries components) with
    | nil =>
      rw [hof] at h
      cases h
    | cons first rest =>
      rw [hof, getLast?_cons_eq] at h
      exact ⟨(entry.uid, entry), Grouped.mem_groups.mpr ⟨first, rest, hof, (Option.some.inj h).symm⟩, rfl⟩

theorem IsLast.unique (h : IsLast components entry) (h' : IsLast components entry') (huid : entry.uid = entry'.uid) :
    entry = entry' := by
  rw [IsLast] at h h'
  rw [huid] at h
  exact Option.some.inj (h.symm.trans h')

end Latest

/-! ### Where they stand -/

section Placed

variable {crate : Icalendar} {zones : Text → Option (ℤ → ℤ)} {paris : Paris} {now now' t : ℤ} {d : DatePerhapsTime}
  {entry : Entry} {components : List CalendarComponent}

theorem resolve_of_denotes (hutc : ∀ dt t, crate.tryIntoUtc dt = some t ↔ dt.Denotes zones t) (h : d.Denotes zones t) :
    resolve crate now d = t := by
  cases d with
  | DateTime dt => rw [resolve, (hutc dt t).mpr h, Option.getD_some]
  | Date date => exact h.symm

/-- What denotes no instant is read as the time of the reading. -/
theorem resolve_of_not_denotes (hutc : ∀ dt t, crate.tryIntoUtc dt = some t ↔ dt.Denotes zones t)
    (h : ¬ ∃ t, d.Denotes zones t) : resolve crate now d = now := by
  cases d with
  | DateTime dt =>
    cases hdt : crate.tryIntoUtc dt with
    | none => rw [resolve, hdt, Option.getD_none]
    | some t => exact absurd ⟨t, (hutc dt t).mp hdt⟩ h
  | Date date => exact absurd ⟨date * day, rfl⟩ h

theorem importBounds_le (paris : Paris) (allDay : Bool) {s e : ℤ} (h : s ≤ e) :
    (importBounds paris allDay s e).1 ≤ (importBounds paris allDay s e).2 := by
  rw [importBounds]
  split
  · rw [normalizeAllDay_eq]
    exact (startOfDay_lt paris (date_lt_dayAfter paris _ _)).le
  · exact h

theorem importBounds_wholeDays (paris : Paris) (s e : ℤ) : paris.normalizeAllDay (importBounds paris true s e).1
    (importBounds paris true s e).2 = importBounds paris true s e :=
  normalizeAllDay_normalizeAllDay paris _ _

/-- Read then, an entry is placed: it starts at an instant, which the reading does not follow where its end denotes none. -/
def Entry.Denotes (zones : Text → Option (ℤ → ℤ)) (entry : Entry) (now : ℤ) : Prop :=
  ∃ t, entry.start.Denotes zones t ∧
    ∀ end_, entry.event.end_ = some end_ → (¬ ∃ t', end_.Denotes zones t') → now ≤ t

theorem parsed_endsAt (crate : Icalendar) (now : ℤ) (entry : Entry) : (entry.parsed crate now).endsAt =
    ((entry.event.end_.map (resolve crate now)).filter (resolve crate now entry.start ≤ ·)).getD
      (resolve crate now entry.start) := rfl

theorem Entry.Denotes.placedAs (hutc : ∀ dt t, crate.tryIntoUtc dt = some t ↔ dt.Denotes zones t)
    (h : entry.Denotes zones now) : PlacedAs zones paris (entry.parsed crate now) entry := by
  obtain ⟨t, hstart, hend⟩ := h
  have hat : (entry.parsed crate now).startsAt = t := resolve_of_denotes hutc hstart
  have hresolve : resolve crate now entry.start = t := hat
  have hallDay : (entry.parsed crate now).allDay = true ↔ ∃ date, entry.start = .Date date := by
    change isDate entry.start = true ↔ _
    cases entry.start with
    | DateTime dt => simp [isDate]
    | Date date => simp [isDate]
  have hends : (∃ end_ t', entry.event.end_ = some end_ ∧ end_.Denotes zones t' ∧ t ≤ t' ∧
        (entry.parsed crate now).endsAt = t') ∨
      ((∀ end_ t', entry.event.end_ = some end_ → end_.Denotes zones t' → t' < t) ∧
        (entry.parsed crate now).endsAt = t) := by
    rw [parsed_endsAt, hresolve]
    cases hsome : entry.event.end_ with
    | none => exact .inr ⟨fun end_ t' h => (by cases h), rfl⟩
    | some end_ =>
      rw [Option.map_some, Option.filter_some]
      by_cases hdenotes : ∃ t', end_.Denotes zones t'
      · obtain ⟨t', hdenotes⟩ := hdenotes
        rw [resolve_of_denotes hutc hdenotes]
        by_cases hle : t ≤ t'
        · rw [if_pos (decide_eq_true hle)]
          exact .inl ⟨end_, t', rfl, hdenotes, hle, rfl⟩
        · rw [if_neg (by rwa [decide_eq_true_iff])]
          refine .inr ⟨fun end' t'' heq hdenotes' => ?_, rfl⟩
          obtain rfl := Option.some.inj heq
          have hsame : t' = t'' := by
            rw [← @resolve_of_denotes _ _ now _ _ hutc hdenotes, ← @resolve_of_denotes _ _ now _ _ hutc hdenotes']
          omega
      · have hle := hend end_ hsome hdenotes
        rw [resolve_of_not_denotes hutc hdenotes]
        refine .inr ⟨fun end' t'' heq hdenotes' => ?_, ?_⟩
        · obtain rfl := Option.some.inj heq
          exact absurd ⟨t'', hdenotes'⟩ hdenotes
        · by_cases hge : t ≤ now
          · rw [if_pos (decide_eq_true hge), Option.getD_some]
            omega
          · rw [if_neg (by rwa [decide_eq_true_iff]), Option.getD_none]
  have hordered : t ≤ (entry.parsed crate now).endsAt := by
    rcases hends with ⟨_, t', -, -, hle, heq⟩ | ⟨-, heq⟩
    · rw [heq]
      exact hle
    · exact heq.ge
  rw [← hat] at hstart hends hordered
  exact {
    texts := ⟨rfl, rfl, rfl, rfl, rfl⟩
    start := hstart
    allDay := hallDay
    ends := hends
    ordered := hordered
    bounds := importBounds_le paris _ hordered
    wholeDays := fun hday => by
      rw [hday]
      exact importBounds_wholeDays paris _ _
  }

theorem PlacedAs.denotes (hutc : ∀ dt t, crate.tryIntoUtc dt = some t ↔ dt.Denotes zones t)
    (h : PlacedAs zones paris (entry.parsed crate now) entry) : entry.Denotes zones now := by
  refine ⟨_, h.start, fun end_ hsome hdenotes => ?_⟩
  obtain ⟨end', t', hsome', hdenotes', -⟩ | ⟨-, hend⟩ := h.ends
  · rw [hsome] at hsome'
    exact absurd ⟨t', Option.some.inj hsome' ▸ hdenotes'⟩ hdenotes
  · rw [parsed_endsAt, hsome, Option.map_some, Option.filter_some, resolve_of_not_denotes hutc hdenotes] at hend
    by_cases hge : resolve crate now entry.start ≤ now
    · rw [if_pos (decide_eq_true hge)] at hend
      exact hend.le
    · exact (not_le.mp hge).le

/-- Two readings place an entry alike. -/
theorem PlacedAs.parsed_eq (h : PlacedAs zones paris (entry.parsed crate now) entry)
    (h' : PlacedAs zones paris (entry.parsed crate now') entry)
    (hutc : ∀ dt t, crate.tryIntoUtc dt = some t ↔ dt.Denotes zones t) :
    entry.parsed crate now = entry.parsed crate now' := by
  have hstart : (entry.parsed crate now).startsAt = (entry.parsed crate now').startsAt :=
    (resolve_of_denotes hutc h'.start : resolve crate now entry.start = _)
  have hdenotes : ∀ {d : DatePerhapsTime} {t t' : ℤ}, d.Denotes zones t → d.Denotes zones t' → t = t' := by
    intro d t t' ht ht'
    rw [← @resolve_of_denotes _ _ now _ _ hutc ht, ← @resolve_of_denotes _ _ now _ _ hutc ht']
  have hend : (entry.parsed crate now).endsAt = (entry.parsed crate now').endsAt := by
    obtain ⟨end_, t, hsome, ht, hle, hat⟩ | ⟨hnone, hat⟩ := h.ends
    · obtain ⟨end', t', hsome', ht', -, hat'⟩ | ⟨hnone', -⟩ := h'.ends
      · rw [hsome] at hsome'
        rw [hat, hat', hdenotes ht (Option.some.inj hsome' ▸ ht')]
      · have hlt := hnone' end_ t hsome ht
        omega
    · obtain ⟨end', t', hsome', ht', hle', -⟩ | ⟨-, hat'⟩ := h'.ends
      · have hlt := hnone end' t' hsome' ht'
        omega
      · rw [hat, hat', hstart]
  exact ParsedEvent.ext rfl rfl rfl rfl hstart hend rfl rfl

theorem parseIcs_eq {body : Text} (hbody : crate.parse body = some components) (now : ℤ) :
    parseIcs crate now body = .ok ((lastEntries components).map fun g => g.2.parsed crate now) := by
  rw [parseIcs, hbody]
  exact congrArg Except.ok (foldl_parseComponent components)

theorem map_uid_lastEntries (crate : Icalendar) (now : ℤ) (components : List CalendarComponent) :
    ((lastEntries components).map fun g => g.2.parsed crate now).map ParsedEvent.externalUid =
      (lastEntries components).map Prod.fst := by
  rw [List.map_map]
  exact List.map_congr_left fun g hg => (keyed_lastEntries components g hg).symm

/-- A feed is read the same at two times, its events where it says, exactly when each entry that counts starts at an
    instant, and none of the two comes after the start of one whose end denotes none. -/
theorem parseIcs_places_iff (hutc : ∀ dt t, crate.tryIntoUtc dt = some t ↔ dt.Denotes zones t) {body : Text}
    (hbody : crate.parse body = some components) (now now' : ℤ) :
    (∃ events, parseIcs crate now body = .ok events ∧ parseIcs crate now' body = .ok events ∧
      Places zones paris components events) ↔
      ∀ entry, IsLast components entry → entry.Denotes zones now ∧ entry.Denotes zones now' := by
  constructor
  · rintro ⟨events, hread, hread', hplaces⟩ entry hlast
    obtain ⟨g, hg, rfl⟩ := mem_lastEntries.mpr hlast
    have hdenotes : ∀ now, parseIcs crate now body = .ok events → g.2.Denotes zones now := by
      intro now hread
      rw [parseIcs_eq hbody] at hread
      have hmem : g.2.parsed crate now ∈ events := Except.ok.inj hread ▸ List.mem_map_of_mem hg
      obtain ⟨entry, hentry, hplaced⟩ := hplaces.last _ hmem
      obtain rfl := hlast.unique hentry hplaced.texts.1
      exact hplaced.denotes hutc
    exact ⟨hdenotes now hread, hdenotes now' hread'⟩
  · intro h
    refine ⟨_, parseIcs_eq hbody now, ?_, ?_⟩
    · rw [parseIcs_eq hbody now']
      refine congrArg Except.ok (List.map_congr_left fun g hg => ?_)
      obtain ⟨hnow, hnow'⟩ := h g.2 (mem_lastEntries.mp ⟨g, hg, rfl⟩)
      have hplaced : PlacedAs zones paris (g.2.parsed crate now') g.2 := hnow'.placedAs hutc
      exact hplaced.parsed_eq (hnow.placedAs hutc) hutc
    · exact {
        once := by
          rw [map_uid_lastEntries]
          exact Grouped.nodup_groups
        last := by
          intro x hx
          obtain ⟨g, hg, rfl⟩ := List.mem_map.mp hx
          have hlast := mem_lastEntries.mp ⟨g, hg, rfl⟩
          exact ⟨g.2, hlast, (h g.2 hlast).1.placedAs hutc⟩
        kept := by
          intro entry hlast _
          obtain ⟨g, hg, rfl⟩ := mem_lastEntries.mpr hlast
          exact ⟨_, List.mem_map_of_mem hg, rfl⟩
      }

end Placed

/-! ### Two feeds -/

/-- A feed of one entry, at 14 h on 15 January 2026, in UTC. -/
def dentistFeed : Text :=
  "BEGIN:VCALENDAR\nBEGIN:VEVENT\nUID:a@x\nDTSTART:20260115T140000Z\nEND:VEVENT\nEND:VCALENDAR\n".toList

def dentist : Event :=
  ⟨some "a@x".toList, some (.DateTime (.Utc (20468 * day + 14 * hour))), none, none, none, none, none, none, none⟩

/-- The same, at 14 h of a zone no table has. -/
def lostFeed : Text :=
  "BEGIN:VCALENDAR\nBEGIN:VEVENT\nUID:a@x\nDTSTART;TZID=Home:20260115T140000\nEND:VEVENT\nEND:VCALENDAR\n".toList

def lost : Event := ⟨some "a@x".toList, some (.DateTime (.WithTimezone (20468 * day + 14 * hour) "Home".toList)), none,
  none, none, none, none, none, none⟩

/-- The crate on these two, knowing no zone by name. -/
def twoFeeds : Icalendar where
  parse body :=
    if body = dentistFeed then some [.Event dentist]
    else if body = lostFeed then some [.Event lost]
    else none
  tryIntoUtc
    | .Utc t => some t
    | _ => none

theorem twoFeeds_tryIntoUtc (dt : CalendarDateTime) (t : ℤ) :
    twoFeeds.tryIntoUtc dt = some t ↔ dt.Denotes (fun _ => none) t := by
  cases dt with
  | Floating wall => simp [twoFeeds, CalendarDateTime.Denotes]
  | Utc u => simp [twoFeeds, CalendarDateTime.Denotes, eq_comm]
  | WithTimezone wall tzid => simp [twoFeeds, CalendarDateTime.Denotes]

theorem isLast_dentist {entry : Entry} (h : IsLast [.Event dentist] entry) (now : ℤ) :
    entry.Denotes (fun _ => none) now := by
  have hin : entry ∈ entries [.Event dentist] := (List.mem_filter.mp (List.mem_of_getLast? h)).1
  obtain rfl : entry = ⟨"a@x".toList, .DateTime (.Utc (20468 * day + 14 * hour)), dentist⟩ := by
    simpa [entries, entryOf, dentist] using hin
  exact ⟨20468 * day + 14 * hour, rfl, fun end_ hend => (by cases hend)⟩

/-- A feed in UTC is read the same at any two times. -/
theorem parseIcs_places_dentist : ∃ events, parseIcs twoFeeds 0 dentistFeed = .ok events ∧
    parseIcs twoFeeds 1 dentistFeed = .ok events ∧ Places (fun _ => none) europeParis [.Event dentist] events :=
  (parseIcs_places_iff twoFeeds_tryIntoUtc (if_pos rfl) 0 1).mpr fun _ h => ⟨isLast_dentist h 0, isLast_dentist h 1⟩

/-- An hour of an unknown zone is the time of the reading: another at each. -/
theorem parseIcs_moves_lost : ¬ ∀ (crate : Icalendar) (zones : Text → Option (ℤ → ℤ)) (paris : Paris),
    (∀ dt t, crate.tryIntoUtc dt = some t ↔ dt.Denotes zones t) → ∀ (body : Text) (components : List CalendarComponent),
    crate.parse body = some components → ∀ now now' : ℤ, ∃ events, parseIcs crate now body = .ok events ∧
      parseIcs crate now' body = .ok events ∧ Places zones paris components events := by
  intro h
  have hbody : twoFeeds.parse lostFeed = some [.Event lost] := by decide +kernel
  obtain ⟨events, hread, hread', -⟩ := h twoFeeds (fun _ => none) europeParis twoFeeds_tryIntoUtc lostFeed _ hbody 0 1
  have hsame := hread.trans hread'.symm
  rw [parseIcs, parseIcs, hbody] at hsame
  exact absurd hsame (by decide)

end Home.GoogleCalendar
