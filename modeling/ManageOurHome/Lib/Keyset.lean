import Mathlib.Data.List.Sort
import Mathlib.Data.List.Forall2
import Mathlib.Data.List.Nodup

/-! @lib keyset pagination | layer:library | family:paging

    A table read newest first, by pages, each asked for past the last row of the one before, while rows come and go
    between the pages. A page looks one row further than it shows, to say whether there is more.

        table   9 8 7 6 5      page of 2 past 8:  7 6 · more      then 6 is deleted:  past 6:  5 · no more -/

namespace Keyset

variable {α P : Type} [LinearOrder P]

structure Page (α : Type) where
  rows : List α
  more : Bool

variable (place : α → P)

/-- Newer rows first. -/
def newestFirst (table : List α) : List α := table.insertionSort fun x y => place y ≤ place x

/-- What is past a cursor. -/
def past (cursor : Option P) (x : α) : Bool := cursor.all fun p => place x < p

def page (table : List α) (cursor : Option P) (limit : ℕ) : Page α :=
  let rows := (newestFirst place (table.filter (past place cursor))).take (limit + 1)
  ⟨rows.take limit, rows.length > limit⟩

/-- The cursor of the page after, when there is more. -/
def Page.next (p : Page α) : Option P := if p.more then p.rows.getLast?.map place else none

/-- What the table holds when a page is asked for, and how many rows are. -/
structure Visit where
  table : List α
  limit : ℕ
  unique : (table.map place).Nodup
  pos : 0 < limit

/-- The pages seen, each past the one before, until there is no more. -/
def walk : Option P → List (Visit place) → List (Page α)
  | _, [] => []
  | cursor, v :: visits =>
    let p := page place v.table cursor v.limit
    p :: (p.next place).elim [] fun c => walk (some c) visits

/-- The rows of some pages. -/
def listed (pages : List (Page α)) : List α := pages.flatMap (·.rows)

/-- EXACT: strictly descending over all pages, none longer than asked, `more` when an older row is there, stopping
    only for want of more; a walk that has stopped lists once each row that was there throughout. -/
structure Exact [DecidableEq α] (visits : List (Visit place)) (pages : List (Page α)) : Prop where
  descending : (listed pages).Pairwise fun x y => place y < place x
  bounded : List.Forall₂ (fun v p => p.rows.length ≤ v.limit) (visits.take pages.length) pages
  more_iff : ∀ k v p, visits[k]? = some v → pages[k]? = some p →
    (p.more = true ↔ ∃ x ∈ v.table, ∀ y ∈ listed (pages.take (k + 1)), place x < place y)
  stops : pages.length < visits.length → ∃ p ∈ pages.getLast?, p.more = false
  once : (∃ p ∈ pages.getLast?, p.more = false) →
    ∀ x, (∀ v ∈ visits.take pages.length, x ∈ v.table) → (listed pages).count x = 1

variable {place} {table : List α} {cursor : Option P} {limit : ℕ} {x : α}

/-! ### One page -/

theorem newestFirst_pairwise (table : List α) : (newestFirst place table).Pairwise fun x y => place y ≤ place x := by
  have htotal : Std.Total fun x y : α => place y ≤ place x := ⟨fun x y => le_total (place y) (place x)⟩
  have htrans : IsTrans α fun x y => place y ≤ place x := ⟨fun _ _ _ h h' => le_trans h' h⟩
  exact List.pairwise_insertionSort _ table

theorem newestFirst_perm (table : List α) : (newestFirst place table).Perm table := List.perm_insertionSort _ _

theorem newestFirst_descending (h : (table.map place).Nodup) :
    (newestFirst place table).Pairwise fun x y => place y < place x := by
  have hnodup : ((newestFirst place table).map place).Nodup :=
    ((newestFirst_perm table).map place).nodup_iff.mpr h
  have hne : (newestFirst place table).Pairwise fun x y => place x ≠ place y := List.pairwise_map.mp hnodup
  refine ((newestFirst_pairwise table).and hne).imp ?_
  rintro x y ⟨hle, hxy⟩
  exact lt_of_le_of_ne hle (Ne.symm hxy)

/-- Past the `n` newest rows: as many are newer. -/
theorem mem_drop_newestFirst (h : (table.map place).Nodup) (n : ℕ) : x ∈ (newestFirst place table).drop n ↔
    x ∈ table ∧ n ≤ (table.filter fun y => decide (place x < place y)).length := by
  have hsorted := newestFirst_descending h
  have hperm := @newestFirst_perm _ _ _ place table
  rw [← hperm.mem_iff, ← (hperm.filter _).length_eq]
  clear hperm
  generalize newestFirst place table = l at hsorted
  induction l generalizing n with
  | nil => simp
  | cons y l ih =>
    obtain ⟨hbefore, hsorted⟩ := List.pairwise_cons.mp hsorted
    have hself : (l.filter fun z => decide (place y < place z)) = [] :=
      List.filter_eq_nil_iff.mpr fun z hz => by simpa using (hbefore z hz).le
    cases n with
    | zero => simp
    | succ n =>
      rw [List.drop_succ_cons, List.mem_cons, List.filter_cons]
      refine (ih n hsorted).trans ⟨?_, ?_⟩
      · rintro ⟨hx, hle⟩
        rw [if_pos (decide_eq_true (hbefore x hx)), List.length_cons]
        exact ⟨.inr hx, Nat.succ_le_succ hle⟩
      · rintro ⟨rfl | hx, hle⟩
        · rw [if_neg (by simp), hself] at hle
          exact absurd hle (Nat.not_succ_le_zero n)
        · rw [if_pos (decide_eq_true (hbefore x hx)), List.length_cons] at hle
          exact ⟨hx, Nat.le_of_succ_le_succ hle⟩

/-- Without what is past the `n` newest rows, `n` are left at most. -/
theorem length_filter_drop_newestFirst [DecidableEq α] (table : List α) (n : ℕ) :
    (table.filter fun x => decide (x ∉ (newestFirst place table).drop n)).length ≤ n := by
  rw [← ((@newestFirst_perm _ _ _ place table).filter _).length_eq]
  generalize newestFirst place table = l
  conv_lhs => rw [← List.take_append_drop n l, List.filter_append, List.length_append]
  have hdrop : ((l.drop n).filter fun x => decide (x ∉ (l.take n ++ l.drop n).drop n)) = [] := by
    rw [List.take_append_drop]
    exact List.filter_eq_nil_iff.mpr fun x hx => by simpa using hx
  rw [hdrop, List.length_nil]
  exact (List.length_filter_le _ _).trans (List.length_take_le _ _)

/-- What a page is cut from: the rows past the cursor, newest first. -/
def ahead (place : α → P) (table : List α) (cursor : Option P) : List α :=
  newestFirst place (table.filter (past place cursor))

@[simp] theorem mem_ahead : x ∈ ahead place table cursor ↔ x ∈ table ∧ past place cursor x = true := by
  rw [ahead, newestFirst, List.mem_insertionSort, List.mem_filter]

theorem ahead_descending (h : (table.map place).Nodup) :
    (ahead place table cursor).Pairwise fun x y => place y < place x :=
  newestFirst_descending (h.sublist (List.filter_sublist.map place))

theorem page_rows : (page place table cursor limit).rows = (ahead place table cursor).take limit := by
  rw [page, ahead, List.take_take, min_eq_left (Nat.le_succ limit)]

/-- The look-ahead tells whether rows are left. -/
theorem page_more : (page place table cursor limit).more = true ↔ limit < (ahead place table cursor).length := by
  rw [page, decide_eq_true_iff, List.length_take, ahead]
  omega

theorem past_of_mem_page (h : x ∈ (page place table cursor limit).rows) : past place cursor x = true := by
  rw [page_rows] at h
  exact (mem_ahead.mp (List.mem_of_mem_take h)).2

/-- No more: the page has every row left. -/
theorem mem_page_of_not_more (hmore : (page place table cursor limit).more = false) (hx : x ∈ table)
    (hpast : past place cursor x = true) : x ∈ (page place table cursor limit).rows := by
  have hlength : (ahead place table cursor).length ≤ limit := by
    by_contra hlt
    rw [page_more.mpr (by omega)] at hmore
    exact absurd hmore (by simp)
  rw [page_rows, List.take_of_length_le hlength]
  exact mem_ahead.mpr ⟨hx, hpast⟩

/-- More: the cursor of the page after is the place of the last row shown, and what is left is past it. -/
theorem next_of_more (v : Visit place) (hmore : (page place v.table cursor v.limit).more = true) :
    ∃ y ∈ (page place v.table cursor v.limit).rows, (page place v.table cursor v.limit).next place = some (place y) ∧
      (∀ x ∈ (page place v.table cursor v.limit).rows, place y ≤ place x) ∧
      (∀ x ∈ v.table, past place cursor x = true →
        x ∈ (page place v.table cursor v.limit).rows ∨ place x < place y) ∧
      ∃ x ∈ v.table, past place cursor x = true ∧ place x < place y := by
  have hlength : v.limit < (ahead place v.table cursor).length := page_more.mp hmore
  have hpos := v.pos
  have hdesc : (ahead place v.table cursor).Pairwise fun x y => place y < place x := ahead_descending v.unique
  have hrows : (page place v.table cursor v.limit).rows = (ahead place v.table cursor).take v.limit := page_rows
  have hne : (ahead place v.table cursor).take v.limit ≠ [] := by
    rw [ne_eq, List.take_eq_nil_iff]
    rintro (h | h)
    · omega
    · rw [h] at hlength
      exact absurd hlength (by simp)
  obtain ⟨front, y, hfront⟩ := List.eq_nil_or_concat _ |>.resolve_left hne
  rw [List.concat_eq_append] at hfront
  have hsplit : ahead place v.table cursor = (front ++ [y]) ++ (ahead place v.table cursor).drop v.limit := by
    rw [← hfront, List.take_append_drop]
  have hleft : (ahead place v.table cursor).drop v.limit ≠ [] := by
    rw [ne_eq, List.drop_eq_nil_iff]
    omega
  obtain ⟨hshown, -, hlater⟩ := List.pairwise_append.mp (hsplit ▸ hdesc)
  have hlast : ∀ x ∈ front, place y < place x := fun x hx => (List.pairwise_append.mp hshown).2.2 x hx y (by simp)
  have hy : y ∈ front ++ [y] := by simp
  refine ⟨y, by rw [hrows, hfront]; exact hy, ?_, ?_, ?_, ?_⟩
  · rw [Page.next, if_pos hmore, hrows, hfront, List.getLast?_concat]
    rfl
  · intro x hx
    rw [hrows, hfront] at hx
    rcases List.mem_append.mp hx with hx | hx
    · exact (hlast x hx).le
    · rw [List.mem_singleton.mp hx]
  · intro x hx hpast
    have hmem : x ∈ (front ++ [y]) ++ (ahead place v.table cursor).drop v.limit :=
      hsplit ▸ mem_ahead.mpr ⟨hx, hpast⟩
    rcases List.mem_append.mp hmem with hx | hx
    · left
      rwa [hrows, hfront]
    · exact Or.inr (hlater y hy x hx)
  · obtain ⟨x, hx⟩ := List.exists_mem_of_ne_nil _ hleft
    obtain ⟨hxtable, hxpast⟩ := mem_ahead.mp (List.mem_of_mem_drop hx)
    exact ⟨x, hxtable, hxpast, hlater y hy x hx⟩

omit [LinearOrder P] in
theorem next_of_not_more (p : Page α) (h : p.more = false) : p.next place = none := by
  rw [Page.next, h]
  rfl

omit [LinearOrder P] in
theorem next_map {p : Page α} (place : α → P) {y : Option α} (h : p.next (fun x => x) = y) : p.next place = y.map place := by
  rw [← h, Page.next, Page.next]
  split
  · rw [Option.map_id']
  · rfl

/-- The row a page ends on is a row of the table. -/
theorem mem_of_next {y : α} (h : (page place table cursor limit).next (fun x => x) = some y) : y ∈ table := by
  rw [Page.next] at h
  split at h
  · rw [Option.map_id', page_rows] at h
    exact (mem_ahead.mp (List.mem_of_mem_take (List.mem_of_getLast? h))).1
  · exact absurd h (by simp)

/-! ### A walk -/

/-- How one page leads to the next: the walk stops, or goes on past the last row shown. -/
inductive Leads (cursor : Option P) (v : Visit place) (visits : List (Visit place)) : List (Page α) → Prop where
  | stop (hmore : (page place v.table cursor v.limit).more = false) : Leads cursor v visits []
  | follow (y : α) (hmore : (page place v.table cursor v.limit).more = true)
      (hy : y ∈ (page place v.table cursor v.limit).rows)
      (hlast : ∀ x ∈ (page place v.table cursor v.limit).rows, place y ≤ place x)
      (hleft : ∀ x ∈ v.table, past place cursor x = true →
        x ∈ (page place v.table cursor v.limit).rows ∨ place x < place y)
      (holder : ∃ x ∈ v.table, past place cursor x = true ∧ place x < place y) :
      Leads cursor v visits (walk place (some (place y)) visits)

theorem walk_cons (cursor : Option P) (v : Visit place) (visits : List (Visit place)) :
    ∃ pages, walk place cursor (v :: visits) = page place v.table cursor v.limit :: pages ∧
      Leads cursor v visits pages := by
  rw [walk]
  cases hmore : (page place v.table cursor v.limit).more with
  | false =>
    rw [next_of_not_more _ hmore]
    exact ⟨[], rfl, .stop hmore⟩
  | true =>
    obtain ⟨y, hy, hnext, hlast, hleft, holder⟩ := next_of_more v hmore
    rw [hnext]
    exact ⟨_, rfl, .follow y hmore hy hlast hleft holder⟩

theorem past_some {p : P} : past place (some p) x = true ↔ place x < p := by simp [past]

/-- Past a row shown is past the cursor it was shown from. -/
theorem past_of_lt {y : α} (hy : past place cursor y = true) (h : place x < place y) : past place cursor x = true := by
  cases cursor with
  | none => rfl
  | some p => exact past_some.mpr (h.trans (past_some.mp hy))

theorem past_of_mem_walk (visits : List (Visit place)) (cursor : Option P) :
    ∀ x ∈ listed (walk place cursor visits), past place cursor x = true := by
  induction visits generalizing cursor with
  | nil =>
    intro x hx
    exact absurd hx (by simp [walk, listed])
  | cons v visits ih =>
    intro x hx
    obtain ⟨pages, hwalk, hleads⟩ := walk_cons cursor v visits
    rw [hwalk, listed, List.flatMap_cons, List.mem_append] at hx
    rcases hx with hx | hx
    · exact past_of_mem_page hx
    · cases hleads with
      | stop => exact absurd hx (by simp)
      | follow y _ hy => exact past_of_lt (past_of_mem_page hy) (past_some.mp (ih _ x hx))

theorem walk_descending (visits : List (Visit place)) (cursor : Option P) :
    (listed (walk place cursor visits)).Pairwise fun x y => place y < place x := by
  induction visits generalizing cursor with
  | nil => exact List.Pairwise.nil
  | cons v visits ih =>
    obtain ⟨pages, hwalk, hleads⟩ := walk_cons cursor v visits
    rw [hwalk, listed, List.flatMap_cons, List.pairwise_append]
    have hpage : (page place v.table cursor v.limit).rows.Pairwise fun x y => place y < place x := by
      rw [page_rows]
      exact (ahead_descending v.unique).sublist (List.take_sublist _ _)
    cases hleads with
    | stop => exact ⟨hpage, List.Pairwise.nil, fun _ _ _ h => absurd h (by simp)⟩
    | follow y _ _ hlast =>
      refine ⟨hpage, ih _, ?_⟩
      intro x hx z hz
      exact (past_some.mp (past_of_mem_walk visits _ z hz)).trans_le (hlast x hx)

theorem walk_bounded (visits : List (Visit place)) (cursor : Option P) :
    List.Forall₂ (fun v p => p.rows.length ≤ v.limit) (visits.take (walk place cursor visits).length)
      (walk place cursor visits) := by
  induction visits generalizing cursor with
  | nil => exact List.Forall₂.nil
  | cons v visits ih =>
    obtain ⟨pages, hwalk, hleads⟩ := walk_cons cursor v visits
    have hpage : (page place v.table cursor v.limit).rows.length ≤ v.limit := by
      rw [page_rows, List.length_take]
      exact Nat.min_le_left _ _
    rw [hwalk, List.length_cons, List.take_succ_cons]
    refine .cons hpage ?_
    cases hleads with
    | stop => exact List.Forall₂.nil
    | follow y => exact ih _

theorem walk_stops (visits : List (Visit place)) (cursor : Option P)
    (h : (walk place cursor visits).length < visits.length) :
    ∃ p ∈ (walk place cursor visits).getLast?, p.more = false := by
  induction visits generalizing cursor with
  | nil => exact absurd h (by simp)
  | cons v visits ih =>
    obtain ⟨pages, hwalk, hleads⟩ := walk_cons cursor v visits
    rw [hwalk] at h ⊢
    cases hleads with
    | stop hmore => exact ⟨_, rfl, hmore⟩
    | follow y =>
      rw [List.length_cons, List.length_cons, Nat.add_lt_add_iff_right] at h
      obtain ⟨p, hp, hmore⟩ := ih _ h
      refine ⟨p, ?_, hmore⟩
      rw [Option.mem_def] at hp ⊢
      rw [List.getLast?_cons, hp]
      rfl

/-- `more`, on every page: past the cursor, something is older than every row listed so far. -/
theorem walk_more_iff (visits : List (Visit place)) (cursor : Option P) (k : ℕ) (v : Visit place) (p : Page α)
    (hv : visits[k]? = some v) (hp : (walk place cursor visits)[k]? = some p) :
    p.more = true ↔ ∃ x ∈ v.table, past place cursor x = true ∧
      ∀ y ∈ listed ((walk place cursor visits).take (k + 1)), place x < place y := by
  induction visits generalizing cursor k with
  | nil => exact absurd hv (by simp)
  | cons first visits ih =>
    obtain ⟨pages, hwalk, hleads⟩ := walk_cons cursor first visits
    rw [hwalk] at hp ⊢
    rw [List.take_succ_cons, listed, List.flatMap_cons]
    cases k with
    | zero =>
      obtain rfl : first = v := Option.some_injective _ hv
      obtain rfl : page place first.table cursor first.limit = p := Option.some_injective _ hp
      rw [List.take_zero, List.flatMap_nil, List.append_nil]
      cases hleads with
      | stop hmore =>
        refine iff_of_false (by simp [hmore]) ?_
        rintro ⟨x, hx, hpast, hlt⟩
        exact lt_irrefl _ (hlt x (mem_page_of_not_more hmore hx hpast))
      | follow y hmore hy hlast hleft holder =>
        obtain ⟨x, hx, hpast, hlt⟩ := holder
        exact iff_of_true hmore ⟨x, hx, hpast, fun z hz => hlt.trans_le (hlast z hz)⟩
    | succ k =>
      cases hleads with
      | stop => exact absurd hp (by simp)
      | follow y _ hy hlast =>
        rw [ih (some (place y)) k hv hp]
        constructor
        · rintro ⟨x, hx, hpast, hlt⟩
          have hxy : place x < place y := past_some.mp hpast
          refine ⟨x, hx, past_of_lt (past_of_mem_page hy) hxy, ?_⟩
          intro z hz
          rcases List.mem_append.mp hz with hz | hz
          · exact hxy.trans_le (hlast z hz)
          · exact hlt z hz
        · rintro ⟨x, hx, -, hlt⟩
          exact ⟨x, hx, past_some.mpr (hlt y (List.mem_append_left _ hy)), fun z hz => hlt z (List.mem_append_right _ hz)⟩

/-- A walk that has stopped has listed every row past its cursor that was there throughout. -/
theorem mem_walk_of_stopped (visits : List (Visit place)) (cursor : Option P)
    (hstopped : ∃ p ∈ (walk place cursor visits).getLast?, p.more = false)
    (hx : ∀ v ∈ visits.take (walk place cursor visits).length, x ∈ v.table) (hpast : past place cursor x = true) :
    x ∈ listed (walk place cursor visits) := by
  induction visits generalizing cursor with
  | nil =>
    obtain ⟨p, hp, -⟩ := hstopped
    exact absurd hp (by simp [walk])
  | cons v visits ih =>
    obtain ⟨pages, hwalk, hleads⟩ := walk_cons cursor v visits
    rw [hwalk] at hstopped hx ⊢
    rw [List.length_cons, List.take_succ_cons] at hx
    rw [listed, List.flatMap_cons, List.mem_append]
    have hxv : x ∈ v.table := hx v List.mem_cons_self
    cases hleads with
    | stop hmore => exact Or.inl (mem_page_of_not_more hmore hxv hpast)
    | follow y hmore hy hlast hleft =>
      rcases hleft x hxv hpast with hshown | hlt
      · exact Or.inl hshown
      · refine Or.inr (ih _ ?_ (fun w hw => hx w (List.mem_cons_of_mem _ hw)) (past_some.mpr hlt))
        obtain ⟨p, hp, hlastmore⟩ := hstopped
        refine ⟨p, ?_, hlastmore⟩
        cases hrest : walk place (some (place y)) visits with
        | nil =>
          rw [hrest, Option.mem_def, List.getLast?_singleton, Option.some.injEq] at hp
          rw [← hp, hmore] at hlastmore
          exact absurd hlastmore (by simp)
        | cons next rest => rwa [hrest, List.getLast?_cons_cons] at hp

/-- RUN: the pages of a walk from the newest row are exact. -/
theorem walk_exact [DecidableEq α] (visits : List (Visit place)) : Exact place visits (walk place none visits) where
  descending := walk_descending visits none
  bounded := walk_bounded visits none
  more_iff := by
    intro k v p hv hp
    rw [walk_more_iff visits none k v p hv hp]
    simp [past]
  stops := walk_stops visits none
  once := by
    intro hstopped x hx
    have hnodup : (listed (walk place none visits)).Nodup :=
      (walk_descending visits none).imp fun h heq => absurd (heq ▸ h) (lt_irrefl _)
    exact List.count_eq_one_of_mem hnodup (mem_walk_of_stopped visits none hstopped hx rfl)

end Keyset
