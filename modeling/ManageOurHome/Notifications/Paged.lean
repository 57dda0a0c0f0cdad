import ManageOurHome.Messagerie.Paged
import ManageOurHome.Notifications.Center

/-! @src apps/api/src/notifications/center.rs, apps/web/src/routes/notifications.rs | layer:proof | family:center

    The notification centre read by its links is a walk over the places of the entries of the kind asked for; with
    the thread's, each row is visited once.

        last entry  ⇒  kind=…&before_created_at=…&before_id=…  ⇒  limit=…&kind=…&before_created_at=…&before_id=…  ⇒  rows -/

namespace Home.Center

open Query

variable {U I : Type} {w : Wire I}

/-! ### What is written is read -/

theorem plain_keys : Plain "kind".toList ∧ Plain "before_created_at".toList ∧ Plain "before_id".toList ∧
    Plain "limit".toList := by decide +kernel

/-- A filter of the page is a kind of the API, with nothing to escape, and filters itself. -/
theorem filters_spec : ∀ kind ∈ FILTERS.filterMap id,
    (Kind.parse kind).isSome ∧ Plain kind ∧ kindFilter (some kind) = some kind := by decide +kernel

theorem kindFilter_spec {raw : Option Text} {kind : Text} (h : kindFilter raw = some kind) :
    (∃ k, Kind.parse kind = some k) ∧ Plain kind ∧ kindFilter (some kind) = some kind := by
  obtain ⟨value, -, hfind⟩ := Option.bind_eq_some_iff.mp h
  obtain ⟨filter, hmem, hfilter⟩ := List.exists_of_findSome?_eq_some hfind
  have hkind : filter = some kind := (Option.filter_eq_some_iff.mp hfilter).1
  have hspec := filters_spec kind (List.mem_filterMap.mpr ⟨filter, hmem, hkind⟩)
  exact ⟨Option.isSome_iff_exists.mp hspec.1, hspec.2⟩

/-- The parameters of a cursor. -/
def cursorPairs (w : Wire I) (c : ℤ × I) : Pairs :=
  [("before_created_at".toList, w.cursorInstant c.1), ("before_id".toList, w.uuidText c.2)]

def kindPairs (kind : Option Text) : Pairs := kind.elim [] fun kind => [("kind".toList, kind)]

theorem parse_cursor (hw : w.Lawful) {c : ℤ × I} (hc : Stamp c.1) :
    parse w.coding ("before_created_at".toList ++ '=' :: w.cursorInstant c.1 ++
      '&' :: ("before_id".toList ++ '=' :: w.uuidText c.2)) = cursorPairs w c := by
  obtain ⟨-, hcreated, hid, -⟩ := plain_keys
  rw [parse_cons hw.coding hcreated (hw.cursorInstant _ hc).1, parse_last hw.coding hid (hw.uuid _).1, cursorPairs]

/-- The parameters of a link to older entries. -/
theorem parse_olderHref (hw : w.Lawful) {kind : Option Text} (hkind : ∀ k ∈ kind, Plain k) (n : Notification U I)
    (hn : Stamp n.createdAt) :
    parse w.coding (olderHref w kind n) = kindPairs kind ++ cursorPairs w (n.createdAt, n.id) := by
  have hcursor := parse_cursor hw (c := (n.createdAt, n.id)) hn
  unfold olderHref
  cases kind with
  | none => rw [Option.elim_none, List.nil_append, hcursor, kindPairs, Option.elim_none, List.nil_append]
  | some k =>
    rw [Option.elim_some, List.append_assoc, List.singleton_append, parse_cons hw.coding plain_keys.1 (hkind k rfl), hcursor,
      kindPairs, Option.elim_some, List.singleton_append]

/-- The parameters of a request for a page. -/
theorem parse_path (hw : w.Lawful) (limit : ℤ) {kind : Option Text} (hkind : ∀ k ∈ kind, Plain k)
    (before : Option (ℤ × I)) (hbefore : ∀ c ∈ before, Stamp c.1) :
    parse w.coding (path w limit kind before) =
      ("limit".toList, writeI64 limit) :: (kindPairs kind ++ before.elim [] (cursorPairs w)) := by
  obtain ⟨hkey, -, -, hlimit⟩ := plain_keys
  have hplain := plain_writeI64 limit
  unfold path
  cases kind with
  | none =>
    rw [Option.elim_none, List.nil_append, kindPairs, Option.elim_none, List.nil_append]
    cases before with
    | none => rw [Option.elim_none, Option.elim_none, List.append_nil, parse_last hw.coding hlimit hplain]
    | some c =>
      rw [Option.elim_some, Option.elim_some, parse_cons hw.coding hlimit hplain, parse_cursor hw (hbefore c rfl)]
  | some k =>
    rw [Option.elim_some, kindPairs, Option.elim_some, List.cons_append, parse_cons hw.coding hlimit hplain]
    cases before with
    | none => rw [Option.elim_none, Option.elim_none, List.append_nil, parse_last hw.coding hkey (hkind k rfl)]; rfl
    | some c =>
      rw [Option.elim_some, Option.elim_some, parse_cons hw.coding hkey (hkind k rfl), parse_cursor hw (hbefore c rfl),
        List.singleton_append]

variable {α β : Type} {parser : Text → Option α} {key : Text} {pairs : Pairs}

/-! ### Fields of a request -/

theorem strict_kindPairs_head {kind : Option Text} (h : ∀ p ∈ pairs, p.1 ≠ "kind".toList) :
    strict (kindPairs kind ++ pairs) "kind".toList some = some kind := by
  cases kind with
  | none =>
    rw [kindPairs, Option.elim_none, List.nil_append, strict, List.filter_eq_nil_iff.mpr]
    intro p hp
    simpa using h p hp
  | some k => rw [kindPairs, Option.elim_some, List.singleton_append, strict_head h, Option.map_some]

theorem strict_kindPairs_tail {kind : Option Text} (h : "kind".toList ≠ key) :
    strict (kindPairs kind ++ pairs) key parser = strict pairs key parser := by
  cases kind with
  | none => rfl
  | some k => exact strict_tail h

theorem cursorPairs_keys {c : ℤ × I} : ∀ p ∈ cursorPairs w c, p.1 = "before_created_at".toList ∨ p.1 = "before_id".toList := by
  simp [cursorPairs]

/-- Both halves of the cursor, read. -/
theorem strict_cursorPairs {c : ℤ × I} (f : Text → Option α) (g : Text → Option β) :
    strict (cursorPairs w c) "before_created_at".toList f = (f (w.cursorInstant c.1)).map some ∧
      strict (cursorPairs w c) "before_id".toList g = (g (w.uuidText c.2)).map some := by
  constructor
  · exact strict_head (by simp)
  · rw [cursorPairs, strict_tail (by simp)]
    exact strict_head (by simp)

/-- The page reads in its address the kind and the cursor of the link. -/
theorem pageQuery_olderHref (hw : w.Lawful) {kind : Option Text} (hkind : ∀ k ∈ kind, Plain k) (n : Notification U I)
    (hn : Stamp n.createdAt) :
    pageQuery w (olderHref w kind n) = some ⟨kind, some (w.cursorInstant n.createdAt), some (w.uuidText n.id), none⟩ := by
  obtain ⟨hcreated, hid⟩ := strict_cursorPairs (w := w) (c := (n.createdAt, n.id)) some some
  have hother : ∀ p ∈ cursorPairs w (n.createdAt, n.id), p.1 ≠ "kind".toList := by simp [cursorPairs]
  have herror : strict (cursorPairs w (n.createdAt, n.id)) "error".toList some = some none := by
    rw [cursorPairs, strict_tail (by simp), strict_tail (by simp), strict_nil]
  rw [pageQuery, parse_olderHref hw hkind n hn, strict_kindPairs_head hother, strict_kindPairs_tail (by simp), hcreated,
    strict_kindPairs_tail (by simp), hid, strict_kindPairs_tail (by simp), herror]
  rfl

/-- The API reads in the request what the page asks. -/
theorem listQuery_path (hw : w.Lawful) {limit : ℤ} (hlimit : readI64 (writeI64 limit) = some limit) {kind : Option Text}
    (hkind : ∀ k ∈ kind, Plain k) (before : Option (ℤ × I)) (hbefore : ∀ c ∈ before, Stamp c.1) :
    listQuery w (path w limit kind before) =
      some ⟨kind, before.map (·.1), before.map (·.2), some limit⟩ := by
  have hrest : ∀ p ∈ kindPairs kind ++ before.elim [] (cursorPairs w), p.1 ≠ "limit".toList := by
    intro p hp
    rcases List.mem_append.mp hp with hp | hp
    · cases kind with
      | none => exact absurd hp (by simp [kindPairs])
      | some k =>
        rw [kindPairs, Option.elim_some, List.mem_singleton] at hp
        simp [hp]
    · cases before with
      | none => exact absurd hp (by simp)
      | some c => rcases cursorPairs_keys p hp with h | h <;> simp [h]
  have hother : ∀ p ∈ before.elim [] (cursorPairs w), p.1 ≠ "kind".toList := by
    intro p hp
    cases before with
    | none => exact absurd hp (by simp)
    | some c => rcases cursorPairs_keys p hp with h | h <;> simp [h]
  rw [listQuery, parse_path hw limit hkind before hbefore, strict_head hrest, hlimit, strict_tail (by simp),
    strict_kindPairs_head hother, strict_tail (by simp), strict_kindPairs_tail (by simp), strict_tail (by simp),
    strict_kindPairs_tail (by simp)]
  cases before with
  | none => rfl
  | some c =>
    obtain ⟨hcreated, hid⟩ := strict_cursorPairs (w := w) (c := c) w.parseInstant w.parseUuid
    rw [Option.elim_some, hcreated, hid, (hw.cursorInstant _ (hbefore c rfl)).2, (hw.uuid _).2]
    rfl

/-! ### A page of the walk -/

section

variable [DecidableEq U] [LinearOrder I]

def NotificationPage.page (page : NotificationPage U I) : Keyset.Page (Notification U I) := ⟨page.notifications, page.hasMore⟩

/-- The entries of a member, of the kind asked for. -/
def entries (table : List (Notification U I)) (caller : U) (kind : Option Text) : List (Notification U I) :=
  table.filter fun n => n.userId = caller ∧ (kind.bind Kind.parse).all fun kind => n.kind = kind

omit [DecidableEq U] in
/-- The two halves of the cursor compare as the pair does. -/
theorem before_eq_past (n : Notification U I) (before : Option (ℤ × I)) (kind : Option Text) (limit : Option ℤ) :
    n.before ⟨kind, before.map (·.1), before.map (·.2), limit⟩ =
      Keyset.past Notification.place (before.map toLex) n := by
  cases before with
  | none => rfl
  | some c =>
    rw [Bool.eq_iff_iff, Option.map_some, Option.map_some, Option.map_some, Keyset.past_some, Notification.place,
      Prod.Lex.toLex_lt_toLex]
    simp [Notification.before]

theorem askedKind_of_parse {kind : Option Text} (h : ∀ k ∈ kind, ∃ parsed, Kind.parse k = some parsed) :
    askedKind kind = .ok (kind.bind Kind.parse) := by
  cases kind with
  | none => rfl
  | some k =>
    obtain ⟨parsed, hparsed⟩ := h k rfl
    rw [askedKind, hparsed, Option.bind_some, hparsed]

theorem listNotifications_ok (table : List (Notification U I)) (caller : U) {kind : Option Text}
    (hkind : ∀ k ∈ kind, ∃ parsed, Kind.parse k = some parsed) (before : Option (ℤ × I)) (limit : Option ℤ) :
    ∃ page, listNotifications table caller ⟨kind, before.map (·.1), before.map (·.2), limit⟩ = .ok page ∧
      page.page = Keyset.page Notification.place (entries table caller kind) (before.map toLex) (pageLimit limit) := by
  have hhalves : (before.map (·.1)).isSome = (before.map (·.2)).isSome := by simp
  have hfilter : (table.filter fun n => n.userId = caller ∧ ((kind.bind Kind.parse).all fun kind => n.kind = kind) = true ∧
      n.before ⟨kind, before.map (·.1), before.map (·.2), limit⟩ = true) =
      (entries table caller kind).filter (Keyset.past Notification.place (before.map toLex)) := by
    rw [entries, List.filter_filter]
    congr 1
    funext n
    rw [before_eq_past]
    by_cases hpast : Keyset.past Notification.place (before.map toLex) n = true <;> simp [hpast]
  refine ⟨⟨(Keyset.page Notification.place (entries table caller kind) (before.map toLex) (pageLimit limit)).rows,
    (Keyset.page Notification.place (entries table caller kind) (before.map toLex) (pageLimit limit)).more⟩, ?_, rfl⟩
  rw [listNotifications, askedKind_of_parse hkind]
  simp only [bind, Except.bind, hhalves, ne_eq, not_true_eq_false, if_false, hfilter]
  rfl

/-- STEP: the page of an address with that kind and that cursor. -/
theorem listing_page (hw : w.Lawful) (limit : Int64) (table : List (Notification U I)) (caller : U) (query : PageQuery)
    (before : Option (ℤ × I)) (hcursor : cursor w query.beforeCreatedAt query.beforeId = before)
    (hbefore : ∀ c ∈ before, Stamp c.1) :
    ∃ page, listing w limit.toInt table caller query = .page page ∧ page.page = Keyset.page Notification.place
      (entries table caller (kindFilter query.kind)) (before.map toLex) (pageLimit (some limit.toInt)) := by
  have hlimit : readI64 (writeI64 limit.toInt) = some limit.toInt :=
    readI64_writeI64 (Int64.le_toInt limit) (Int64.toInt_lt limit)
  obtain ⟨page, hpage, hrows⟩ := listNotifications_ok table caller (fun k hk => (kindFilter_spec hk).1) before
    (some limit.toInt)
  refine ⟨page, ?_, hrows⟩
  rw [listing, hcursor, listQuery_path hw hlimit (fun k hk => (kindFilter_spec hk).2.1) before hbefore]
  simp only [hpage]

omit [DecidableEq U] [LinearOrder I] in
theorem place_inj {n n' : Notification U I} (h : n.place = n'.place) : n.id = n'.id :=
  (Prod.mk.inj (toLex.injective h)).2

omit [LinearOrder I] in
theorem Snapshot.places (table : Snapshot U I) (caller : U) (kind : Option Text) :
    ((entries table.rows caller kind).map Notification.place).Nodup := by
  refine List.Nodup.map_on ?_ ((List.Nodup.of_map _ table.unique).filter _)
  intro n hn n' hn' h
  exact List.inj_on_of_nodup_map table.unique (List.mem_of_mem_filter hn) (List.mem_of_mem_filter hn') (place_inj h)

theorem pageLimit_pos (limit : Option ℤ) : 0 < pageLimit limit := by
  rw [pageLimit]
  omega

def Snapshot.visit (caller : U) (kind : Option Text) (v : Snapshot U I × Int64) :
    Keyset.Visit (Notification.place (U := U) (I := I)) :=
  ⟨entries v.1.rows caller kind, pageLimit (some v.2.toInt), v.1.places caller kind, pageLimit_pos _⟩

omit [DecidableEq U] [LinearOrder I] in
theorem olderLink_eq (kind : Option Text) (page : NotificationPage U I) :
    olderLink w kind page = (page.page.next fun n => n).map (olderHref w kind) := by
  rw [olderLink, Keyset.Page.next, NotificationPage.page]
  cases hmore : page.hasMore <;> cases page.notifications.getLast? <;> rfl

/-- RUN: the pages of a member are a walk over the places of the entries. -/
theorem browse_eq_walk (hw : w.Lawful) (caller : U) (seen : List (Snapshot U I × Int64)) (address : Text)
    (query : PageQuery) (hquery : pageQuery w address = some query) (before : Option (ℤ × I))
    (hcursor : cursor w query.beforeCreatedAt query.beforeId = before) (hbefore : ∀ c ∈ before, Stamp c.1) :
    (browse w caller address seen).map NotificationPage.page = Keyset.walk Notification.place (before.map toLex)
      (seen.map (Snapshot.visit caller (kindFilter query.kind))) := by
  induction seen generalizing address query before with
  | nil => rfl
  | cons v seen ih =>
    obtain ⟨table, limit⟩ := v
    obtain ⟨page, hpage, hrows⟩ := listing_page hw limit table.rows caller query before hcursor hbefore
    simp only [browse, hquery, hpage]
    rw [List.map_cons, List.map_cons, Keyset.walk, olderLink_eq, hrows, Snapshot.visit]
    congr 1
    cases hnext : (Keyset.page Notification.place (entries table.rows caller (kindFilter query.kind)) (before.map toLex)
        (pageLimit (some limit.toInt))).next fun n => n with
    | none =>
      have hstop := Keyset.next_map Notification.place hnext
      rw [hstop]
      rfl
    | some last =>
      have hfollow := Keyset.next_map Notification.place hnext
      have hstamp : Stamp last.createdAt := table.dated _ (List.mem_of_mem_filter (Keyset.mem_of_next hnext))
      have hplain : ∀ k ∈ kindFilter query.kind, Plain k := fun k hk => (kindFilter_spec hk).2.1
      have hlink := pageQuery_olderHref hw hplain last hstamp
      have hkept : kindFilter (kindFilter query.kind) = kindFilter query.kind := by
        cases hkind : kindFilter query.kind with
        | none => rfl
        | some k => exact (kindFilter_spec hkind).2.2
      have hread : cursor w (some (w.cursorInstant last.createdAt)) (some (w.uuidText last.id)) =
          some (last.createdAt, last.id) := by
        rw [cursor, Option.bind_some, Option.bind_some, (hw.cursorInstant _ hstamp).2, (hw.uuid _).2]
        rfl
      have hrest := ih _ _ hlink (some (last.createdAt, last.id)) hread (by rintro c ⟨⟩; exact hstamp)
      rw [hkept] at hrest
      rw [hfollow]
      exact hrest

end

/-- ONCE: the thread of a family and the notifications of a member, read by their links from a first page, whatever
    comes and goes between two pages. -/
theorem each_row_once [DecidableEq U] [LinearOrder I] (hw : w.Lawful) :
    (∀ (reader : U) (address : Text) (seen : List (Messagerie.Snapshot U I × Option ℤ)),
      (Messagerie.threadQuery w address).cursor = none →
        Keyset.Exact Messagerie.Message.place (Messagerie.visits (Messagerie.threadQuery w address).limit seen)
          ((Messagerie.browse w reader address seen).map Messagerie.MessageList.page)) ∧
    ∀ (caller : U) (address : Text) (query : PageQuery) (seen : List (Snapshot U I × Int64)),
      pageQuery w address = some query → cursor w query.beforeCreatedAt query.beforeId = none →
        Keyset.Exact Notification.place (seen.map (Snapshot.visit caller (kindFilter query.kind)))
          ((browse w caller address seen).map NotificationPage.page) := by
  refine ⟨fun reader address seen hfirst => Messagerie.browse_exact hw reader seen address hfirst, ?_⟩
  intro caller address query seen hquery hfirst
  rw [browse_eq_walk hw caller seen address query hquery none hfirst (by simp)]
  exact Keyset.walk_exact _

/-! ### Three messages of one instant -/

def escape (c : Char) : Text :=
  if c = '&' then ['%', '2', '6'] else if c = '=' then ['%', '3', 'D'] else if c = '%' then ['%', '2', '5']
  else if c = '+' then ['%', '2', 'B'] else if c = ' ' then ['+'] else [c]

def unescape : Text → Text
  | '%' :: '2' :: '6' :: s => '&' :: unescape s
  | '%' :: '3' :: 'D' :: s => '=' :: unescape s
  | '%' :: '2' :: '5' :: s => '%' :: unescape s
  | '%' :: '2' :: 'B' :: s => '+' :: unescape s
  | '+' :: s => ' ' :: unescape s
  | c :: s => c :: unescape s
  | [] => []

theorem unescape_cons {c : Char} (h : c ≠ '%') (h' : c ≠ '+') (s : Text) : unescape (c :: s) = c :: unescape s := by
  rw [unescape] <;> simp [h, h']

theorem unescape_escape (c : Char) (s : Text) : unescape (escape c ++ s) = c :: unescape s := by
  rw [escape]
  split
  · rename_i h
    rw [h]
    rfl
  split
  · rename_i h
    rw [h]
    rfl
  split
  · rename_i h
    rw [h]
    rfl
  split
  · rename_i h
    rw [h]
    rfl
  split
  · rename_i h
    rw [h]
    rfl
  · rename_i hamp heq hpercent hplus hblank
    exact unescape_cons hpercent hplus s

def formCoding : Coding := ⟨fun s => s.flatMap escape, unescape⟩

theorem formCoding_lawful : formCoding.Lawful where
  decode_encode := by
    intro s
    induction s with
    | nil => rfl
    | cons c s ih => exact (unescape_escape c _).trans (congrArg (c :: ·) ih)
  decode_plain := by
    intro s hs
    induction s with
    | nil => rfl
    | cons c s ih =>
      obtain ⟨-, -, hpercent, hplus⟩ := hs c List.mem_cons_self
      have hrest : formCoding.decode s = s := ih fun c hc => hs c (List.mem_cons_of_mem _ hc)
      exact (unescape_cons hpercent hplus s).trans (congrArg (c :: ·) hrest)
  encode_apart := by
    intro s
    constructor
    all_goals
      intro hmem
      obtain ⟨c, -, hc⟩ := List.mem_flatMap.mp hmem
      exact absurd hc (by rw [escape]; split_ifs <;> simp_all [eq_comm])

/-- 2026-10-30, 17:30 UTC. -/
def dusk : ℤ := 1793381400 * second

/-- That instant as `chrono` writes it; any other in unary, from the year 0. -/
def writeInstant (t : ℤ) : Text :=
  if t = dusk then "2026-10-30T17:30:00.000000Z".toList else List.replicate (t + 719528 * day).toNat '0'

def readInstant (s : Text) : Option ℤ :=
  if s = "2026-10-30T17:30:00.000000Z".toList then some dusk else some (s.length - 719528 * day)

theorem writeInstant_spec {t : ℤ} (ht : Stamp t) : Plain (writeInstant t) ∧ readInstant (writeInstant t) = some t := by
  rw [writeInstant]
  split
  · rename_i h
    rw [h]
    exact ⟨by decide +kernel, rfl⟩
  · have hplain : Plain (List.replicate (t + 719528 * day).toNat '0') := by
      intro c hc
      rw [List.eq_of_mem_replicate hc]
      decide
    have hne : List.replicate (t + 719528 * day).toNat '0' ≠ "2026-10-30T17:30:00.000000Z".toList := by
      intro h
      have hmem : '2' ∈ List.replicate (t + 719528 * day).toNat '0' := by
        rw [h]
        decide +kernel
      exact absurd (List.eq_of_mem_replicate hmem) (by decide)
    refine ⟨hplain, ?_⟩
    have hlow := ht.2.1
    rw [readInstant, if_neg hne, List.length_replicate, Option.some.injEq]
    omega

def uuidHead : Text := "00000000-0000-0000-0000-00000000000".toList

/-- Ids are numbers, the last digits of a `uuid`. -/
def site : Wire ℕ where
  coding := formCoding
  toRfc3339 := writeInstant
  cursorInstant := writeInstant
  parseInstant := readInstant
  uuidText n := uuidHead ++ Nat.toDigits 10 n
  parseUuid s := if s.take 35 = uuidHead then some (Net.value 10 (s.drop 35)) else none

theorem site_lawful : site.Lawful where
  coding := formCoding_lawful
  rfc3339 := fun _ ht => writeInstant_spec ht
  cursorInstant := fun _ ht => writeInstant_spec ht
  uuid := by
    intro n
    have hhead : uuidHead.length = 35 := by decide +kernel
    refine ⟨Plain.append (by decide +kernel) (plain_toDigits n), ?_⟩
    have htake : (uuidHead ++ Nat.toDigits 10 n).take 35 = uuidHead := List.take_left' hhead
    have hdrop : (uuidHead ++ Nat.toDigits 10 n).drop 35 = Nat.toDigits 10 n := List.drop_left' hhead
    simp only [site, htake, hdrop, if_true]
    rw [(Net.toDigits_spec (by decide) (by decide) n).2.1]

theorem stamp_dusk : Stamp dusk := by decide

def posted (ids : List ℕ) (h : ids.Nodup) : Messagerie.Snapshot ℕ ℕ where
  messages := ids.map fun id => ⟨id, 0, dusk⟩
  lastReadAt := fun _ => none
  unique := by
    rw [List.map_map]
    exact (List.map_id ids).symm ▸ h
  dated := by
    intro m hm
    obtain ⟨id, -, rfl⟩ := List.mem_map.mp hm
    exact stamp_dusk

def entered (ids : List ℕ) (h : ids.Nodup) : Snapshot ℕ ℕ where
  rows := ids.map fun id => ⟨id, 0, 0, .Message, none, [], none, dusk⟩
  unique := by
    rw [List.map_map]
    exact (List.map_id ids).symm ▸ h
  dated := by
    intro n hn
    obtain ⟨id, -, rfl⟩ := List.mem_map.mp hn
    exact stamp_dusk

/-- The newest row goes once its page is seen, and is the cursor of the next. -/
theorem each_row_once_dusk :
    Keyset.Exact Messagerie.Message.place
        (Messagerie.visits (some 1)
          [(posted [1, 2, 3] (by decide), some 1), (posted [1, 2] (by decide), some 7), (posted [1, 2] (by decide), none)])
        ((Messagerie.browse site 0 "limit=1".toList
          [(posted [1, 2, 3] (by decide), some 1), (posted [1, 2] (by decide), some 7),
            (posted [1, 2] (by decide), none)]).map Messagerie.MessageList.page) ∧
      Keyset.Exact Notification.place
        ([(entered [1, 2, 3] (by decide), 2), (entered [1, 2] (by decide), 30)].map
          (Snapshot.visit 0 (some "message".toList)))
        ((browse site 0 "kind=message".toList
          [(entered [1, 2, 3] (by decide), 2), (entered [1, 2] (by decide), 30)]).map NotificationPage.page) := by
  have hboth := each_row_once (U := ℕ) site_lawful
  have hlimit : (Messagerie.threadQuery site "limit=1".toList).limit = some 1 := by decide +kernel
  have hkind : kindFilter (some "message".toList) = some "message".toList := by decide +kernel
  constructor
  · have hexact := hboth.1 0 "limit=1".toList [(posted [1, 2, 3] (by decide), some 1), (posted [1, 2] (by decide), some 7),
      (posted [1, 2] (by decide), none)] (by decide +kernel)
    rwa [hlimit] at hexact
  · have hexact := hboth.2 0 "kind=message".toList ⟨some "message".toList, none, none, none⟩
      [(entered [1, 2, 3] (by decide), 2), (entered [1, 2] (by decide), 30)] (by rfl) (by rfl)
    rwa [hkind] at hexact

example : (Messagerie.browse site 0 "limit=1".toList
    [(posted [1, 2, 3] (by decide), some 1), (posted [1, 2] (by decide), some 7), (posted [1, 2] (by decide), none)]).map
      (fun list => list.messages.map (·.id)) = [[3], [2], [1]] := by decide +kernel

end Home.Center
