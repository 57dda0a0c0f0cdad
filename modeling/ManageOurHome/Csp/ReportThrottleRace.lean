import ManageOurHome.Csp.ReportThrottleTable

/-! @src apps/api/src/csp_report_throttle.rs | layer:proof | family:rate-limit

    The limit under any interleaving. `Local` is what a transaction knows at each of its statements;
    it survives time passing, another transaction's commit, and the statement itself, and at the end
    gives `Outcome`. Deletions are what makes it delicate: a row may go between its address's read
    and its update, but only once its window is over, and the request goes on as a newcomer's. -/

namespace Home.ReportThrottle

open FiniteMap ReadCommitted

variable {S K τ : Type*} [DecidableEq S]

/-! ### What a transaction under way knows -/

/-- Every row written is deleted, its window over. -/
def Deletes (s : Shared S Row (Answer S)) (pending : FMap S (Option Row)) : Prop :=
  ∀ k o, pending.get k = some o → o = none ∧ ∃ r, s.rows.get k = some r ∧ r.endsAt ≤ s.clock

/-- Under the lock of `a`, with nothing written. -/
structure Quiet (lockKey : S → K) (t : Tx S Row (Lock K) (Pc S)) (a : S) : Prop where
  pending : t.pending = FMap.empty
  lock : .address (lockKey a) ∈ t.locks

/-- `e` was read on the row of `a`, which has only gone since if its window is over. -/
structure Loaded (s : Shared S Row (Answer S)) (a : S) (now : ℤ) (e : Entry) : Prop where
  time : now ≤ s.clock
  started : e.windowStart ≤ now
  counted : Counted a e s.log
  row : s.rows.get a = some e.row ∨ (s.rows.get a = none ∧ e.endsAt ≤ s.clock)

/-- Under both locks, `a` has no row, and every window of its was over at `now`. -/
structure Counting (lockKey : S → K) (s : Shared S Row (Answer S)) (t : Tx S Row (Lock K) (Pc S))
    (a : S) (now : ℤ) : Prop where
  lock : .address (lockKey a) ∈ t.locks
  table : .table ∈ t.locks
  time : now ≤ s.clock
  absent : s.rows.get a = none
  ended : ∀ x ∈ admissions a s.log, x.2 + WINDOW ≤ now

/-- A request of a held address, counted in its row. -/
structure Updated (lockKey : S → K) (s : Shared S Row (Answer S)) (t : Tx S Row (Lock K) (Pc S))
    (a : S) (now : ℤ) (e : Entry) : Prop where
  lock : .address (lockKey a) ∈ t.locks
  pending : t.pending = FMap.one a (some e.row)
  counts : Counts s a now e.windowStart
  counted : e.requests = inWindow a e.windowStart s.log + 1
  row : ∃ r, s.rows.get a = some r ∧
    (e.windowStart = r.windowStart ∨ (r.endsAt ≤ s.clock ∧ r.endsAt ≤ e.windowStart))

/-- A newcomer's row, inserted. -/
structure Inserted (lockKey : S → K) (s : Shared S Row (Answer S)) (t : Tx S Row (Lock K) (Pc S))
    (a : S) (now : ℤ) : Prop extends Counting lockKey s t a now where
  row : t.pending.get a = some (some (Entry.first now).row)
  rest : ∀ k o, k ≠ a → t.pending.get k = some o →
    o = none ∧ ∃ r, s.rows.get k = some r ∧ r.endsAt ≤ s.clock
  ceiling : (t.visible s.rows).size ≤ MAX_TRACKED
  past : Past s

/-- What a transaction has done when it is about to answer. -/
def Finished (lockKey : S → K) (s : Shared S Row (Answer S)) (t : Tx S Row (Lock K) (Pc S)) :
    Answer S → Prop
  | .own a now e d => d = .Allow ∧ Updated lockKey s t a now e
  | .newcomer a now .Allow => Inserted lockKey s t a now
  | .newcomer a now (.Refused retry) => Counting lockKey s t a now ∧ Deletes s t.pending ∧
      0 < retry ∧ (s.clock < now + retry → Full (t.visible s.rows) (now + retry))
  | .purged => Deletes s t.pending

/-- The assertion at each point of a transaction. -/
def Local (lockKey : S → K) (s : Shared S Row (Answer S)) (t : Tx S Row (Lock K) (Pc S)) : Prop :=
  match t.at_ with
  | .opened _ => t.pending = FMap.empty
  | .locked a => Quiet lockKey t a
  | .timed a now => Quiet lockKey t a ∧ now ≤ s.clock ∧
      ∀ r, s.rows.get a = some r → r.windowStart ≤ now
  | .held a now e => Quiet lockKey t a ∧ Loaded s a now e
  | .newcomer a => Quiet lockKey t a ∧ s.rows.get a = none
  | .tableLocked a => Quiet lockKey t a ∧ .table ∈ t.locks ∧ s.rows.get a = none
  | .counting a now => t.pending = FMap.empty ∧ Counting lockKey s t a now
  | .full a now => t.pending = FMap.empty ∧ Counting lockKey s t a now
  | .swept a now => Counting lockKey s t a now ∧ Deletes s t.pending ∧
      ∀ k r, (t.visible s.rows).get k = some r → now < r.endsAt
  | .insert a now => Counting lockKey s t a now ∧ Deletes s t.pending ∧
      (t.visible s.rows).size < MAX_TRACKED ∧ Past s
  | .done ans => Finished lockKey s t ans
  | .failed => True
  | .purge => t.pending = FMap.empty
  | .purging now => t.pending = FMap.empty ∧ now ≤ s.clock

omit [DecidableEq S] in
theorem deletes_empty (s : Shared S Row (Answer S)) : Deletes s FMap.empty :=
  fun k o h => absurd h (by simp)

/-- While the table is full until later, nothing in it can have been deleted. -/
theorem Deletes.visible_eq {s : Shared S Row (Answer S)} {t : Tx S Row (Lock K) (Pc S)} {u : ℤ}
    (h : Deletes s t.pending) (hfull : Full s.rows u) (hu : s.clock < u) :
    t.visible s.rows = s.rows := by
  refine FMap.ext fun k => ?_
  rw [get_visible]
  rcases hk : t.pending.get k with _ | o
  · rfl
  · obtain ⟨_, r, hr, hends⟩ := h k o hk
    have := hfull.last k r hr
    omega

omit [DecidableEq S] in
theorem Deletes.get_eq_none {s : Shared S Row (Answer S)} {pending : FMap S (Option Row)} {a : S}
    (h : Deletes s pending) (ha : s.rows.get a = none) : pending.get a = none := by
  rcases hp : pending.get a with _ | o
  · rfl
  · obtain ⟨_, r, hr, _⟩ := h a o hp
    exact absurd (ha.symm.trans hr) (by simp)

/-- The deletion of the expired rows, and what it leaves to see. -/
theorem deletes_expired {s : Shared S Row (Answer S)} {t : Tx S Row (Lock K) (Pc S)} {now : ℤ}
    (hp : t.pending = FMap.empty) (hnow : now ≤ s.clock) :
    Deletes s (t.pending.merge (FMap.deleteWhere (expired now) (t.visible s.rows))) ∧
      ∀ k r, (s.rows.patch (t.pending.merge
        (FMap.deleteWhere (expired now) (t.visible s.rows)))).get k = some r → now < r.endsAt := by
  rw [Tx.visible_of_empty hp, hp, FMap.empty_merge]
  refine ⟨fun k o h => ?_, fun k r h => ?_⟩
  · obtain ⟨rfl, r, hr, hexp⟩ := FMap.get_deleteWhere.mp h
    exact ⟨rfl, r, hr, (expired_iff.mp hexp).trans hnow⟩
  · rw [FMap.patch_deleteWhere, FMap.get_filter_eq_some] at h
    by_contra hle
    have hexp : expired now k r = true := expired_iff.mpr (not_lt.mp hle)
    simp [hexp] at h

/-! ### Time passing -/

theorem Kept.tick {s : Shared S Row (Answer S)} {c : ℤ} (h : Kept s) (hc : s.clock ≤ c) :
    Kept { s with clock := c } where
  ceiling := h.ceiling
  row a r hr := ⟨(h.row a r hr).1.trans hc, (h.row a r hr).2⟩
  gone a ha x hx := (h.gone a ha x hx).trans hc
  within := h.within
  apart := h.apart
  share := h.share
  own c' hc' a now e retry hans := by
    have hr := h.own c' hc' a now e retry hans
    exact ⟨hr.full, hr.counted, hr.started, hr.live, hr.until_, fun hlt =>
      hr.stays (lt_of_le_of_lt hc hlt)⟩
  newcomer c' hc' a now retry hans := by
    obtain ⟨hpos, hfull, hsnap⟩ := h.newcomer c' hc' a now retry hans
    exact ⟨hpos, fun hlt => hfull (lt_of_le_of_lt hc hlt), hsnap⟩
  later := h.later

omit [DecidableEq S] in
theorem Deletes.tick {s : Shared S Row (Answer S)} {p : FMap S (Option Row)} {c : ℤ}
    (h : Deletes s p) (hc : s.clock ≤ c) : Deletes { s with clock := c } p := fun k o hk => by
  obtain ⟨ho, r, hr, hends⟩ := h k o hk
  exact ⟨ho, r, hr, hends.trans hc⟩

theorem Counting.tick {lockKey : S → K} {s : Shared S Row (Answer S)}
    {t : Tx S Row (Lock K) (Pc S)} {a : S} {now c : ℤ} (h : Counting lockKey s t a now)
    (hc : s.clock ≤ c) : Counting lockKey { s with clock := c } t a now :=
  ⟨h.lock, h.table, h.time.trans hc, h.absent, h.ended⟩

omit [DecidableEq S] in
theorem Past.tick {s : Shared S Row (Answer S)} {c : ℤ} (h : Past s) (hc : s.clock ≤ c) :
    Past { s with clock := c } :=
  fun c' hc' a now retry hans => (h c' hc' a now retry hans).trans hc

theorem Local.tick {lockKey : S → K} {s : Shared S Row (Answer S)}
    {t : Tx S Row (Lock K) (Pc S)} {c : ℤ} (h : Local lockKey s t) (hc : s.clock ≤ c) :
    Local lockKey { s with clock := c } t := by
  obtain ⟨pc, pending, locks⟩ := t
  cases pc with
  | opened | locked | newcomer | tableLocked | failed | purge => exact h
  | timed a now => exact ⟨h.1, h.2.1.trans hc, h.2.2⟩
  | held a now e =>
    obtain ⟨hquiet, hl⟩ := h
    exact ⟨hquiet, hl.time.trans hc, hl.started, hl.counted,
      hl.row.imp_right fun hr => ⟨hr.1, hr.2.trans hc⟩⟩
  | counting a now => exact ⟨h.1, h.2.tick hc⟩
  | full a now => exact ⟨h.1, h.2.tick hc⟩
  | swept a now => exact ⟨h.1.tick hc, h.2.1.tick hc, h.2.2⟩
  | insert a now => exact ⟨h.1.tick hc, h.2.1.tick hc, h.2.2.1, h.2.2.2.tick hc⟩
  | purging now => exact ⟨h.1, h.2.trans hc⟩
  | done ans =>
    rcases ans with ⟨a, now, e, d⟩ | ⟨a, now, _ | retry⟩ | _
    · obtain ⟨hd, hu⟩ := h
      obtain ⟨r, hr, hstart⟩ := hu.row
      have hcounts := hu.counts
      exact ⟨hd, hu.lock, hu.pending, ⟨hcounts.time.trans hc, hcounts.started, hcounts.live,
        hcounts.latest, hcounts.room⟩, hu.counted, r, hr,
        hstart.imp_right fun hs => ⟨hs.1.trans hc, hs.2⟩⟩
    · have hi : Inserted lockKey s _ a now := h
      exact ⟨hi.toCounting.tick hc, hi.row, fun k o hk hp => by
        obtain ⟨ho, r, hr, hends⟩ := hi.rest k o hk hp
        exact ⟨ho, r, hr, hends.trans hc⟩, hi.ceiling, hi.past.tick hc⟩
    · obtain ⟨hcounting, hdel, hpos, hfull⟩ := h
      exact ⟨hcounting.tick hc, hdel.tick hc, hpos, fun hlt => hfull (lt_of_le_of_lt hc hlt)⟩
    · exact Deletes.tick h hc

/-! ### Another transaction's commit -/

section Interference

variable {lockKey : S → K} {s : Shared S Row (Answer S)} {t u : Tx S Row (Lock K) (Pc S)}
  {ans : Answer S}

/-- Nothing but a deletion reaches the row of an address whose lock another transaction holds. -/
theorem Outcome.get_of_lock (o : Outcome lockKey s t ans) (h : t.Apart u) {a : S}
    (hlock : .address (lockKey a) ∈ u.locks) :
    (s.commit t ans).rows.get a = s.rows.get a ∨
      ((s.commit t ans).rows.get a = none ∧ ∃ r, s.rows.get a = some r ∧ r.endsAt ≤ s.clock) := by
  show (t.visible s.rows).get a = _ ∨ ((t.visible s.rows).get a = _ ∧ _)
  rw [get_visible]
  rcases hp : t.pending.get a with _ | o'
  · exact Or.inl rfl
  · cases o.touch a o' hp with
    | delete r hr hends => exact Or.inr ⟨rfl, r, hr, hends⟩
    | update r r' _ ht => exact absurd hlock (h.locks _ ht)
    | insert r' _ ht => exact absurd hlock (h.locks _ ht)

theorem Outcome.admissions_of_lock (o : Outcome lockKey s t ans) (h : t.Apart u) {a : S}
    (hlock : .address (lockKey a) ∈ u.locks) :
    admissions a (s.commit t ans).log = admissions a s.log := by
  refine admissions_cons_none ?_ s.log
  refine o.allowed_eq_none fun r hp => ?_
  cases o.touch a _ hp with
  | update r _ _ ht => exact h.locks _ ht hlock
  | insert _ _ ht => exact h.locks _ ht hlock

theorem Outcome.absent_of_lock (o : Outcome lockKey s t ans) (h : t.Apart u) {a : S}
    (hlock : .address (lockKey a) ∈ u.locks) (ha : s.rows.get a = none) :
    (s.commit t ans).rows.get a = none := by
  rcases o.get_of_lock h hlock with heq | ⟨hnone, _⟩
  · rw [heq, ha]
  · exact hnone

theorem Outcome.get_of_pending (h : t.Apart u) {k : S} {o' : Option Row}
    (hk : u.pending.get k = some o') : (s.commit t ans).rows.get k = s.rows.get k := by
  show (t.visible s.rows).get k = _
  rw [get_visible, h.get_eq_none hk, Option.getD_none]

theorem Outcome.deletes (h : t.Apart u) (hd : Deletes s u.pending) :
    Deletes (s.commit t ans) u.pending := fun k o' hk => by
  obtain ⟨ho, r, hr, hends⟩ := hd k o' hk
  exact ⟨ho, r, (Outcome.get_of_pending h hk).trans hr, hends⟩

/-- Nothing is inserted while another transaction holds the table's lock. -/
theorem Outcome.not_inserted (o : Outcome lockKey s t ans) (h : t.Apart u)
    (htable : .table ∈ u.locks) (k : S) (r : Row) (hk : s.rows.get k = none) :
    t.pending.get k ≠ some (some r) := by
  intro hp
  obtain ⟨now, hn⟩ := o.inserted k r hk hp
  exact h.locks _ (o.table k now _ hn) htable

/-- What another transaction holding the table's lock sees only loses rows, and the others last at
    least as long. -/
theorem Outcome.visible_of_table (o : Outcome lockKey s t ans) (h : t.Apart u)
    (htable : .table ∈ u.locks) {k : S} {r' : Row}
    (hk : (u.visible (s.commit t ans).rows).get k = some r') :
    ∃ r, (u.visible s.rows).get k = some r ∧ r.endsAt ≤ r'.endsAt := by
  rw [get_visible] at hk ⊢
  rcases hu : u.pending.get k with _ | o'
  · rw [hu, Option.getD_none] at hk
    rw [Option.getD_none]
    change (t.visible s.rows).get k = some r' at hk
    rw [get_visible] at hk
    rcases hp : t.pending.get k with _ | o''
    · rw [hp] at hk; exact ⟨r', hk, le_refl _⟩
    · rw [hp, Option.getD_some] at hk
      subst hk
      cases o.touch k _ hp with
      | update r _ hr _ hstart =>
        refine ⟨r, hr, ?_⟩
        have hW : 0 < WINDOW := by decide
        rw [Row.endsAt, Row.endsAt] at *
        rcases hstart with hstart | ⟨_, hstart⟩ <;> omega
      | insert _ hr => exact absurd hp (o.not_inserted h htable k r' hr)
  · rw [hu] at hk
    exact ⟨r', hk, le_refl _⟩

theorem Outcome.visible_size_le (o : Outcome lockKey s t ans) (h : t.Apart u)
    (htable : .table ∈ u.locks) :
    (u.visible (s.commit t ans).rows).size ≤ (u.visible s.rows).size :=
  FMap.size_le_of_get fun k hk => by
    obtain ⟨r', hr'⟩ := Option.isSome_iff_exists.mp hk
    obtain ⟨r, hr, _⟩ := o.visible_of_table h htable hr'
    rw [hr]; rfl

theorem Outcome.past_of_table (o : Outcome lockKey s t ans) (h : t.Apart u)
    (htable : .table ∈ u.locks) (hpast : Past s) : Past (s.commit t ans) := by
  intro c hc a now retry hans
  rcases List.mem_cons.mp hc with rfl | hc
  · exact absurd htable (h.locks _ (o.table a now _ hans))
  · exact hpast c hc a now retry hans

theorem Outcome.counting (o : Outcome lockKey s t ans) (h : t.Apart u) {a : S} {now : ℤ}
    (hu : Counting lockKey s u a now) : Counting lockKey (s.commit t ans) u a now where
  lock := hu.lock
  table := hu.table
  time := hu.time
  absent := o.absent_of_lock h hu.lock hu.absent
  ended := by rw [o.admissions_of_lock h hu.lock]; exact hu.ended

theorem Outcome.inWindow_of_lock (o : Outcome lockKey s t ans) (h : t.Apart u) {a : S}
    (hlock : .address (lockKey a) ∈ u.locks) (start : ℤ) :
    inWindow a start (s.commit t ans).log = inWindow a start s.log := by
  rw [inWindow, o.admissions_of_lock h hlock, inWindow]

/-- STEP: a transaction's assertion survives another's commit. -/
theorem Outcome.local_ (o : Outcome lockKey s t ans) (h : t.Apart u) (hu : Local lockKey s u) :
    Local lockKey (s.commit t ans) u := by
  obtain ⟨pc, pending, locks⟩ := u
  cases pc with
  | opened | locked | failed | purge | purging => exact hu
  | timed a now =>
    obtain ⟨hquiet, hnow, hrow⟩ := hu
    refine ⟨hquiet, hnow, fun r hr => ?_⟩
    rcases o.get_of_lock h hquiet.lock with heq | ⟨hnone, _⟩
    · exact hrow r (heq ▸ hr)
    · exact absurd (hnone.symm.trans hr) (by simp)
  | held a now e =>
    obtain ⟨hquiet, hl⟩ := hu
    refine ⟨hquiet, hl.time, hl.started, ⟨hl.counted.pos, hl.counted.share, ?_, ?_⟩, ?_⟩
    · rw [o.inWindow_of_lock h hquiet.lock]; exact hl.counted.counted
    · rw [o.admissions_of_lock h hquiet.lock]; exact hl.counted.latest
    · rcases hl.row with hrow | ⟨hrow, hends⟩
      · rcases o.get_of_lock h hquiet.lock with heq | ⟨hnone, r, hr, hends⟩
        · exact Or.inl (heq.trans hrow)
        · obtain rfl := Option.some.inj (hrow.symm.trans hr)
          exact Or.inr ⟨hnone, hends⟩
      · exact Or.inr ⟨o.absent_of_lock h hquiet.lock hrow, hends⟩
  | newcomer a => exact ⟨hu.1, o.absent_of_lock h hu.1.lock hu.2⟩
  | tableLocked a => exact ⟨hu.1, hu.2.1, o.absent_of_lock h hu.1.lock hu.2.2⟩
  | counting a now => exact ⟨hu.1, o.counting h hu.2⟩
  | full a now => exact ⟨hu.1, o.counting h hu.2⟩
  | swept a now =>
    obtain ⟨hcounting, hdel, hlive⟩ := hu
    refine ⟨o.counting h hcounting, Outcome.deletes h hdel, fun k r' hk => ?_⟩
    obtain ⟨r, hr, hle⟩ := o.visible_of_table h hcounting.table hk
    exact (hlive k r hr).trans_le hle
  | insert a now =>
    obtain ⟨hcounting, hdel, hsize, hpast⟩ := hu
    exact ⟨o.counting h hcounting, Outcome.deletes h hdel,
      (o.visible_size_le h hcounting.table).trans_lt hsize, o.past_of_table h hcounting.table hpast⟩
  | done ans' =>
    rcases ans' with ⟨a, now, e, d⟩ | ⟨a, now, _ | retry⟩ | _
    · obtain ⟨hd, hu⟩ := hu
      have hcounts := hu.counts
      obtain ⟨r, hr, hstart⟩ := hu.row
      have hp : pending.get a = some (some e.row) := by
        have : pending = FMap.one a (some e.row) := hu.pending
        rw [this, FMap.get_one, if_pos rfl]
      refine ⟨hd, hu.lock, hu.pending, ⟨hcounts.time, hcounts.started, hcounts.live, ?_, ?_⟩, ?_,
        r, (Outcome.get_of_pending h hp).trans hr, hstart⟩
      · rw [o.admissions_of_lock h hu.lock]; exact hcounts.latest
      · rw [o.inWindow_of_lock h hu.lock]; exact hcounts.room
      · rw [o.inWindow_of_lock h hu.lock]; exact hu.counted
    · have hi : Inserted lockKey s _ a now := hu
      refine ⟨o.counting h hi.toCounting, hi.row, fun k o' hk hp => ?_,
        (o.visible_size_le h hi.table).trans hi.ceiling, o.past_of_table h hi.table hi.past⟩
      obtain ⟨ho, r, hr, hends⟩ := hi.rest k o' hk hp
      exact ⟨ho, r, (Outcome.get_of_pending h hp).trans hr, hends⟩
    · obtain ⟨hcounting, hdel, hpos, hfull⟩ := hu
      refine ⟨o.counting h hcounting, Outcome.deletes h hdel, hpos, fun hlt => ?_⟩
      have hf := hfull hlt
      exact hf.of_ends (o.ends_eq (fun k o' hk => h.symm.get_eq_none hk)
        (o.not_inserted h hcounting.table) hf.last hlt)
    · exact Outcome.deletes h hu

end Interference

/-! ### One statement of its own -/

section Advance

variable {lockKey : S → K} {s : Shared S Row (Answer S)} {t t' : Tx S Row (Lock K) (Pc S)}

theorem Counted.entry_row {a : S} {e : Entry} {log : List (Commit S Row (Answer S))}
    (h : Counted a e log) : e.row.entry = e := Entry.entry_row h.share

/-- A window that is over, or that has room, counts the request in it. -/
theorem Loaded.counts {a : S} {now : ℤ} {e e' : Entry} (h : Loaded s a now e)
    (hd : e.admission now = (e', .Allow)) :
    Counts s a now e'.windowStart ∧ e'.requests = inWindow a e'.windowStart s.log + 1 ∧
      (e'.windowStart = e.windowStart ∨ (e.endsAt ≤ now ∧ e.endsAt ≤ e'.windowStart)) := by
  have hW : 0 < WINDOW := by decide
  rcases e.admission_cases now with ⟨hstale, heq⟩ | ⟨_, _, heq⟩ | ⟨hlive, hroom, heq⟩
  · obtain ⟨rfl, -⟩ := Prod.mk.inj (heq.symm.trans hd)
    have hover : ∀ x ∈ admissions a s.log, x.2 + WINDOW ≤ now := fun x hx => by
      rw [Entry.endsAt] at hstale
      rcases h.counted.latest x hx with hxe | hle <;> omega
    have hzero : inWindow a now s.log = 0 := by
      rw [inWindow, List.countP_eq_zero]
      intro x hx
      have := hover x hx
      simp only [decide_eq_true_eq]
      omega
    refine ⟨⟨h.time, le_refl _, ?_, fun x hx => Or.inr (hover x hx), ?_⟩, ?_, Or.inr ⟨hstale, hstale⟩⟩
    · show now < now + WINDOW; omega
    · show inWindow a now s.log < _; rw [hzero]; decide
    · show 1 = inWindow a now s.log + 1; rw [hzero]
  · exact absurd (heq.symm.trans hd) (by simp)
  · obtain ⟨rfl, -⟩ := Prod.mk.inj (heq.symm.trans hd)
    exact ⟨⟨h.time, h.started, hlive, h.counted.latest, by
      show inWindow a e.windowStart s.log < _; rw [h.counted.counted]; exact hroom⟩,
      by rw [h.counted.counted], Or.inl rfl⟩

/-- The entry is left as it was loaded exactly when the request is refused. -/
theorem admission_eq_loaded (e : Entry) (now : ℤ) :
    (e.admission now).1 = e ↔
      now < e.endsAt ∧ MAX_REPORTS ≤ e.requests ∧
        e.admission now = (e, .Refused (e.endsAt - now)) := by
  have hW : 0 < WINDOW := by decide
  rcases e.admission_cases now with ⟨hstale, heq⟩ | ⟨hlive, hfull, heq⟩ | ⟨hlive, hroom, heq⟩
  · refine ⟨fun h => ?_, fun h => absurd h.1 (not_lt.mpr hstale)⟩
    rw [heq] at h
    have hws : now = e.windowStart := congrArg Entry.windowStart h
    rw [Entry.endsAt] at hstale
    omega
  · rw [heq]; exact ⟨fun _ => ⟨hlive, hfull, rfl⟩, fun _ => rfl⟩
  · refine ⟨fun h => ?_, fun h => absurd h.2.1 (not_le.mpr hroom)⟩
    rw [heq] at h
    have hr : e.requests + 1 = e.requests := congrArg Entry.requests h
    omega

theorem Past.of_room (hk : Kept s) (h : ∀ u, s.clock < u → ¬Full s.rows u) : Past s := by
  intro c hc a now retry hans
  by_contra hlt
  exact h _ (not_le.mp hlt) ((hk.newcomer c hc a now retry hans).2.1 (not_le.mp hlt))

/-- STEP: a statement takes a transaction's assertion to the next one. -/
theorem Local.advance (hk : Kept s) (h : Local lockKey s t)
    (hstep : Tx.Advance (code lockKey) s t t') : Local lockKey s t' := by
  obtain ⟨pc, pending, locks⟩ := t
  cases pc with
  | opened a =>
    obtain rfl := hstep.of_lock rfl
    exact ⟨h, List.mem_cons_self⟩
  | locked a =>
    obtain rfl := hstep.of_clock rfl
    exact ⟨⟨h.pending, h.lock⟩, le_refl _, fun r hr => (hk.row a r hr).1⟩
  | timed a now =>
    obtain ⟨hquiet, hnow, hrow⟩ := h
    obtain rfl := hstep.of_query rfl
    rw [Tx.visible_of_empty hquiet.pending]
    rcases hr : s.rows.get a with _ | r
    · exact ⟨⟨hquiet.pending, hquiet.lock⟩, hr⟩
    · obtain ⟨_, e, rfl, hcounted⟩ := hk.row a r hr
      have hstart := hrow _ hr
      refine ⟨⟨hquiet.pending, hquiet.lock⟩, ?_⟩
      show Loaded s a now e.row.entry
      rw [hcounted.entry_row]
      exact ⟨hnow, hstart, hcounted, Or.inl hr⟩
  | held a now e =>
    obtain ⟨hquiet, hl⟩ := h
    by_cases he : (e.admission now).1 = e
    · exact (hstep.not_commit (by simp only [code, if_pos he]; rfl)).elim
    · obtain rfl := hstep.of_write (by simp only [code, if_neg he]; rfl)
      have hd : e.admission now = ((e.admission now).1, .Allow) := by
        rcases e.admission_cases now with ⟨_, heq⟩ | ⟨_, _, heq⟩ | ⟨_, _, heq⟩
        · rw [heq]
        · exact absurd (by rw [heq]) he
        · rw [heq]
      have hpending : pending = FMap.empty := hquiet.pending
      rw [Tx.visible_of_empty hquiet.pending]
      rcases hl.row with hrow | ⟨hrow, _⟩
      · obtain ⟨hcounts, hcount, hstart⟩ := hl.counts hd
        simp only [FMap.updateAt, hrow, Option.isSome_some, if_true, hpending, FMap.empty_merge]
        refine ⟨congrArg Prod.snd hd, hquiet.lock, rfl, hcounts, hcount, e.row, hrow, ?_⟩
        exact hstart.imp_right fun hs => ⟨hs.1.trans hl.time, hs.2⟩
      · simp only [FMap.updateAt, hrow, Option.isSome_none, Bool.false_eq_true, if_false, hpending,
          FMap.empty_merge]
        exact ⟨⟨rfl, hquiet.lock⟩, hrow⟩
  | newcomer a =>
    obtain rfl := hstep.of_lock rfl
    exact ⟨⟨h.1.pending, List.mem_cons_of_mem _ h.1.lock⟩, List.mem_cons_self, h.2⟩
  | tableLocked a =>
    obtain ⟨hquiet, htable, hnone⟩ := h
    obtain rfl := hstep.of_clock rfl
    exact ⟨hquiet.pending, hquiet.lock, htable, le_refl _, hnone, hk.gone a hnone⟩
  | counting a now =>
    obtain ⟨hp, hc⟩ := h
    obtain rfl := hstep.of_query rfl
    rw [Tx.visible_of_empty hp]
    by_cases hfull : MAX_TRACKED ≤ s.rows.size
    · simp only [if_pos hfull]
      exact ⟨hp, hc.lock, hc.table, hc.time, hc.absent, hc.ended⟩
    · simp only [if_neg hfull]
      have hp : pending = FMap.empty := hp
      refine ⟨⟨hc.lock, hc.table, hc.time, hc.absent, hc.ended⟩, ?_, ?_, ?_⟩
      · exact hp ▸ deletes_empty s
      · rw [Tx.visible_of_empty hp]; omega
      · exact Past.of_room hk fun u _ hu => hfull hu.full
  | full a now =>
    obtain ⟨hp, hc⟩ := h
    obtain rfl := hstep.of_write rfl
    obtain ⟨hdel, hlive⟩ := deletes_expired (t := ⟨.full a now, pending, locks⟩) hp hc.time
    exact ⟨⟨hc.lock, hc.table, hc.time, hc.absent, hc.ended⟩, hdel, hlive⟩
  | swept a now =>
    obtain ⟨hc, hdel, hlive⟩ := h
    obtain rfl := hstep.of_query rfl
    have hc' : ∀ at', Counting lockKey s ⟨at', pending, locks⟩ a now := fun _ =>
      ⟨hc.lock, hc.table, hc.time, hc.absent, hc.ended⟩
    set seen := (⟨.swept a now, pending, locks⟩ : Tx S Row (Lock K) (Pc S)).visible s.rows with hseen
    rcases hd : refuseNewcomer seen.size (earliest seen) now with _ | d
    · simp only
      have hsize : seen.size < MAX_TRACKED := by
        by_contra hle
        unfold refuseNewcomer at hd
        rw [if_pos (not_lt.mp hle)] at hd
        exact absurd hd (by simp)
      refine ⟨hc' _, hdel, hsize, Past.of_room hk fun u hlt hu => ?_⟩
      have heq := hdel.visible_eq (t := ⟨.swept a now, pending, locks⟩) hu hlt
      have := hu.full
      rw [hseen, heq] at hsize
      omega
    · simp only
      obtain ⟨retry, rfl, hpos, hfull, ⟨k, r, hk', hr⟩, hlast⟩ := refuseNewcomer_spec hlive hd
      exact ⟨hc' _, hdel, hpos, fun _ => ⟨hfull, ⟨k, r, hk', hr⟩, hlast⟩⟩
  | insert a now =>
    obtain ⟨hc, hdel, hsize, hpast⟩ := h
    obtain rfl := hstep.of_write rfl
    have hp : pending.get a = none := hdel.get_eq_none hc.absent
    set seen := (⟨.insert a now, pending, locks⟩ : Tx S Row (Lock K) (Pc S)).visible s.rows with hseen
    have hnone : seen.get a = none := by
      rw [hseen, get_visible, hp, Option.getD_none, hc.absent]
    simp only [FMap.insertAt, hnone, Option.isSome_none, Bool.false_eq_true, if_false]
    have hget : ∀ k, (pending.merge (FMap.one a (some (Entry.first now).row))).get k
        = if k = a then some (some (Entry.first now).row) else pending.get k := fun k => by
      rw [FMap.get_merge, FMap.get_one]
      split <;> rfl
    refine ⟨⟨hc.lock, hc.table, hc.time, hc.absent, hc.ended⟩, ?_, fun k o hk' hp' => ?_, ?_, hpast⟩
    · rw [hget, if_pos rfl]
    · rw [hget, if_neg hk'] at hp'
      exact hdel k o hp'
    · rw [Tx.visible, FMap.patch_merge, FMap.patch_one]
      exact (FMap.size_set_le _ _ _).trans hsize
  | done ans => exact (hstep.not_commit rfl).elim
  | failed => exact (hstep.not_rollback rfl).elim
  | purge =>
    obtain rfl := hstep.of_clock rfl
    exact ⟨h, le_refl _⟩
  | purging now =>
    obtain ⟨hp, hnow⟩ := h
    obtain rfl := hstep.of_write rfl
    exact (deletes_expired (t := ⟨.purging now, pending, locks⟩) hp hnow).1

end Advance

/-! ### A commit of its own -/

section Commit

variable {lockKey : S → K} {s : Shared S Row (Answer S)} {t : Tx S Row (Lock K) (Pc S)}

omit [DecidableEq S] in
theorem Deletes.touch {locks : List (Lock K)} {p : FMap S (Option Row)} (h : Deletes s p) {k : S}
    {o : Option Row} (hk : p.get k = some o) : Touch lockKey s locks k o := by
  obtain ⟨rfl, r, hr, hends⟩ := h k o hk
  exact .delete r hr hends

/-- Deleting rows keeps the ceiling. -/
theorem Deletes.ceiling (h : Deletes s t.pending) (hk : Kept s) :
    (t.visible s.rows).size ≤ MAX_TRACKED := by
  refine (FMap.size_le_of_get fun k hsome => ?_).trans hk.ceiling
  rw [get_visible] at hsome
  rcases hp : t.pending.get k with _ | o
  · rwa [hp] at hsome
  · obtain ⟨rfl, _⟩ := h k o hp
    rw [hp] at hsome
    exact absurd hsome (by simp)

/-- A transaction that only deleted, and whose answer admits nothing. -/
theorem Deletes.outcome (h : Deletes s t.pending) (hk : Kept s) {ans : Answer S}
    (hsilent : ∀ a, ans.allowed a = none)
    (hown : ∀ a now e retry, ans = .own a now e (.Refused retry) → OwnRefusal s a now e retry)
    (hnew : ∀ a now retry, ans = .newcomer a now (.Refused retry) →
      0 < retry ∧ (s.clock < now + retry → Full (t.visible s.rows) (now + retry)))
    (htable : ∀ a now d, ans = .newcomer a now d → .table ∈ t.locks) :
    Outcome lockKey s t ans where
  touch _ _ hp := h.touch hp
  ceiling := h.ceiling hk
  counts a x hx := absurd (hx.symm.trans (hsilent a)) (by simp)
  counted a r hp := absurd (h a _ hp).1 (by simp)
  inserted k r _ hp := absurd (h k _ hp).1 (by simp)
  own := hown
  newcomer := hnew
  table := htable
  past a now hn := absurd (hsilent a) (by rw [hn]; simp [Answer.allowed])

/-- STEP: what a transaction has done when it commits. -/
theorem Local.outcome (hk : Kept s) (h : Local lockKey s t) {ans : Answer S}
    (hcode : code lockKey t.at_ = .commit ans) : Outcome lockKey s t ans := by
  obtain ⟨pc, pending, locks⟩ := t
  cases pc with
  | opened | locked | timed | newcomer | tableLocked | counting | full | swept | insert | failed
  | purge | purging => exact absurd hcode (by simp [code])
  | held a now e =>
    obtain ⟨hquiet, hl⟩ := h
    by_cases he : (e.admission now).1 = e
    · obtain ⟨hlive, hfull, heq⟩ := (admission_eq_loaded e now).mp he
      simp only [code, heq, if_true, Stmt.commit.injEq] at hcode
      subst hcode
      have hmax : e.requests = MAX_REPORTS := le_antisymm hl.counted.share hfull
      have hdel : Deletes s pending := (show pending = FMap.empty from hquiet.pending) ▸ deletes_empty s
      refine hdel.outcome hk (fun _ => rfl) (fun a' now' e' retry' hans => ?_)
        (fun _ _ _ hn => absurd hn (by simp)) (fun _ _ _ hn => absurd hn (by simp))
      obtain ⟨rfl, rfl, rfl, hr⟩ := Answer.own.inj hans
      obtain rfl := Decision.Refused.inj hr
      refine ⟨hmax, hl.counted.counted.trans hmax, hl.started, hlive, by omega, fun hlt => ?_⟩
      rcases hl.row with hrow | ⟨_, hends⟩
      · exact hrow
      · omega
    · exact absurd hcode (by simp only [code, if_neg he]; simp)
  | done ans' =>
    obtain rfl := Stmt.commit.inj hcode
    rcases ans' with ⟨a, now, e, d⟩ | ⟨a, now, _ | retry⟩ | _
    · obtain ⟨rfl, hu⟩ := h
      obtain ⟨r, hr, hstart⟩ := hu.row
      have hget : ∀ k o, pending.get k = some o → k = a ∧ o = some e.row := fun k o hp => by
        rw [show pending = FMap.one a (some e.row) from hu.pending, FMap.get_one] at hp
        split at hp
        · rename_i hka; exact ⟨hka, (Option.some.inj hp).symm⟩
        · exact absurd hp (by simp)
      have hself : pending.get a = some (some e.row) := by
        rw [show pending = FMap.one a (some e.row) from hu.pending, FMap.get_one, if_pos rfl]
      refine ⟨fun k o hp => ?_, ?_, fun b x hx => ?_, fun b r' hp => ?_, fun k r' hnone hp => ?_,
        fun _ _ _ _ hn => absurd hn (by simp), fun _ _ _ hn => absurd hn (by simp),
        fun _ _ _ hn => absurd hn (by simp), fun _ _ hn => absurd hn (by simp)⟩
      · obtain ⟨rfl, rfl⟩ := hget k o hp
        exact .update r e.row hr hu.lock hstart
      · refine (FMap.size_le_of_get fun k hsome => ?_).trans hk.ceiling
        rw [get_visible] at hsome
        rcases hp : pending.get k with _ | o
        · rwa [hp] at hsome
        · obtain ⟨rfl, _⟩ := hget k o hp
          rw [hr]; rfl
      · simp only [Answer.allowed] at hx
        split at hx
        · rename_i hab
          subst hab
          obtain rfl := Option.some.inj hx
          exact ⟨hu.counts, e, hself, rfl, hu.counted⟩
        · exact absurd hx (by simp)
      · obtain ⟨rfl, _⟩ := hget b _ hp
        simp [Answer.allowed]
      · obtain ⟨rfl, _⟩ := hget k _ hp
        exact absurd (hnone.symm.trans hr) (by simp)
    · have hi : Inserted lockKey s _ a now := h
      have hself : pending.get a = some (some (Entry.first now).row) := hi.row
      have hzero : inWindow a now s.log = 0 := by
        have hW : 0 < WINDOW := by decide
        rw [inWindow, List.countP_eq_zero]
        intro x hx
        have := hi.ended x hx
        simp only [decide_eq_true_eq]
        omega
      have hcounts : Counts s a now now :=
        ⟨hi.time, le_refl _, lt_add_of_pos_right _ (by decide), fun x hx => Or.inr (hi.ended x hx),
          by rw [hzero]; decide⟩
      have hrest : ∀ k r', pending.get k = some (some r') → k = a := fun k r' hp => by
        by_contra hka
        exact absurd (hi.rest k _ hka hp).1 (by simp)
      refine ⟨fun k o hp => ?_, hi.ceiling, fun b x hx => ?_, fun b r' hp => ?_,
        fun k r' hnone hp => ?_, fun _ _ _ _ hn => absurd hn (by simp),
        fun _ _ _ hn => absurd hn (by simp), fun _ _ _ hn => hi.table, fun _ _ _ => hi.past⟩
      · by_cases hka : k = a
        · subst hka
          obtain rfl := Option.some.inj (hp.symm.trans hself)
          exact .insert _ hi.absent hi.lock hi.table
        · obtain ⟨rfl, r, hr, hends⟩ := hi.rest k o hka hp
          exact .delete r hr hends
      · simp only [Answer.allowed] at hx
        split at hx
        · rename_i hab
          subst hab
          obtain rfl := Option.some.inj hx
          exact ⟨hcounts, Entry.first now, hself, rfl, by rw [hzero]; rfl⟩
        · exact absurd hx (by simp)
      · obtain rfl := hrest b r' hp
        simp [Answer.allowed]
      · obtain rfl := hrest k r' hp
        exact ⟨now, rfl⟩
    · obtain ⟨hc, hdel, hpos, hfull⟩ := h
      refine hdel.outcome hk (fun _ => rfl) (fun _ _ _ _ hn => absurd hn (by simp))
        (fun a' now' retry' hans => ?_) (fun _ _ _ _ => hc.table)
      obtain ⟨rfl, rfl, hr⟩ := Answer.newcomer.inj hans
      obtain rfl := Decision.Refused.inj hr
      exact ⟨hpos, hfull⟩
    · exact Deletes.outcome h hk (fun _ => rfl) (fun _ _ _ _ hn => absurd hn (by simp))
        (fun _ _ _ hn => absurd hn (by simp)) (fun _ _ _ hn => absurd hn (by simp))

end Commit

/-! ### Every interleaving -/

theorem kept_init (c : ℤ) : Kept (⟨FMap.empty, c, []⟩ : Shared S Row (Answer S)) where
  ceiling := Nat.zero_le _
  row _ _ h := absurd h (by simp)
  gone _ _ _ h := absurd h (by simp [admissions])
  within _ _ h := absurd h (by simp [admissions])
  apart _ _ h := absurd h (by simp [admissions])
  share _ _ := Nat.zero_le _
  own _ h := absurd h (by simp)
  newcomer _ h := absurd h (by simp)
  later := List.Pairwise.nil

theorem outline (lockKey : S → K) :
    Outline (fun _ _ => True) (code lockKey) Starts Kept (Local (S := S) lockKey) where
  init := kept_init
  tick _ _ hc h := h.tick hc
  tick_tx _ _ _ hc _ h := h.tick hc
  begin s l _ hstart := by
    cases hstart with
    | request scope => rfl
    | purge => rfl
  advance _ _ _ _ hk h hstep := h.advance hk hstep
  commit _ _ _ hk h hcode := (h.outcome hk hcode).kept hk
  commit_tx _ _ _ _ hk h hcode hu hapart := (h.outcome hk hcode).local_ hapart hu

end Home.ReportThrottle
