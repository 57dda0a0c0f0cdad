import ManageOurHome.Csp.ReportThrottle

/-! @src apps/api/src/csp_report_throttle.rs | layer:proof | family:rate-limit

    What the table, the clock and the commits so far keep (`Kept`), and what a transaction about to
    commit has done (`Outcome`), said once: a request counted in its address's window, a newcomer
    inserted below the ceiling, a refusal, or rows deleted whose window is over. -/

namespace Home.ReportThrottle

open FiniteMap ReadCommitted

variable {S K : Type*} [DecidableEq S]

/-! ### What the commits tell of one address -/

/-- If the answer admits a request of `a`: the clock reading it was decided on, and the start of the
    window it was counted in. -/
def Answer.allowed (a : S) : Answer S → Option (ℤ × ℤ)
  | .own scope now entry .Allow => if scope = a then some (now, entry.windowStart) else none
  | .newcomer scope now .Allow => if scope = a then some (now, now) else none
  | _ => none

/-- The requests of `a` admitted so far, the last one first. -/
def admissions (a : S) (log : List (Commit S Row (Answer S))) : List (ℤ × ℤ) :=
  log.filterMap fun c => c.answer.allowed a

/-- How many of them were counted in the window starting at `start`. -/
def inWindow (a : S) (start : ℤ) (log : List (Commit S Row (Answer S))) : ℕ :=
  (admissions a log).countP fun x => x.2 = start

theorem admissions_cons (a : S) (c : Commit S Row (Answer S)) (log) :
    admissions a (c :: log) = (c.answer.allowed a).toList ++ admissions a log := by
  rw [admissions, List.filterMap_cons]
  rcases c.answer.allowed a with _ | x <;> rfl

theorem admissions_cons_none {a : S} {c : Commit S Row (Answer S)} (h : c.answer.allowed a = none)
    (log) : admissions a (c :: log) = admissions a log := by
  rw [admissions_cons, h]; rfl

theorem admissions_cons_some {a : S} {c : Commit S Row (Answer S)} {x : ℤ × ℤ}
    (h : c.answer.allowed a = some x) (log) :
    admissions a (c :: log) = x :: admissions a log := by
  rw [admissions_cons, h]; rfl

theorem inWindow_le_cons (a : S) (start : ℤ) (c : Commit S Row (Answer S)) (log) :
    inWindow a start log ≤ inWindow a start (c :: log) := by
  rw [inWindow, inWindow, admissions_cons, List.countP_append]
  omega

theorem inWindow_cons_some {a : S} {c : Commit S Row (Answer S)} {x : ℤ × ℤ}
    (h : c.answer.allowed a = some x) (start : ℤ) (log) :
    inWindow a start (c :: log) = inWindow a start log + if x.2 = start then 1 else 0 := by
  rw [inWindow, admissions_cons_some h, List.countP_cons, inWindow]
  simp

theorem exists_of_inWindow {a : S} {start : ℤ} {log : List (Commit S Row (Answer S))}
    (h : 0 < inWindow a start log) : ∃ x ∈ admissions a log, x.2 = start := by
  obtain ⟨x, hx, hs⟩ := List.countP_pos_iff.mp h
  exact ⟨x, hx, by simpa using hs⟩

/-! ### The table -/

def Row.endsAt (r : Row) : ℤ := r.windowStart + WINDOW

/-- A full table of rows that last until `u` at least, one of them no longer. -/
structure Full (rows : FMap S Row) (u : ℤ) : Prop where
  full : MAX_TRACKED ≤ rows.size
  first : ∃ k r, rows.get k = some r ∧ r.endsAt = u
  last : ∀ k r, rows.get k = some r → u ≤ r.endsAt

omit [DecidableEq S] in
/-- Being full until `u` depends on the rows' ends alone. -/
theorem Full.of_ends {m n : FMap S Row} {u : ℤ} (h : Full m u)
    (he : ∀ k, (n.get k).map Row.endsAt = (m.get k).map Row.endsAt) : Full n u := by
  refine ⟨?_, ?_, fun k r hk => ?_⟩
  · have hsize : n.size = m.size := FMap.size_eq_of_get fun k => by
      rw [← Option.isSome_map (f := Row.endsAt), he k, Option.isSome_map]
    rw [hsize]
    exact h.full
  · obtain ⟨k, r, hk, hr⟩ := h.first
    have hk' := he k
    rw [hk, Option.map_some, Option.map_eq_some_iff] at hk'
    obtain ⟨r', hr', heq⟩ := hk'
    exact ⟨k, r', hr', heq.trans hr⟩
  · have hk' := he k
    rw [hk, Option.map_some, eq_comm, Option.map_eq_some_iff] at hk'
    obtain ⟨r', hr', heq⟩ := hk'
    rw [← heq]
    exact h.last k r' hr'

/-- `e` is the window of `a` under way: it counts the requests admitted in it, and every other
    window of `a` was over when it started. -/
structure Counted (a : S) (e : Entry) (log : List (Commit S Row (Answer S))) : Prop where
  pos : 1 ≤ e.requests
  share : e.requests ≤ MAX_REPORTS
  counted : inWindow a e.windowStart log = e.requests
  latest : ∀ x ∈ admissions a log, x.2 = e.windowStart ∨ x.2 + WINDOW ≤ e.windowStart

/-- What a refusal on the address's own row says. -/
structure OwnRefusal (s : Shared S Row (Answer S)) (a : S) (now : ℤ) (e : Entry) (retry : ℤ) :
    Prop where
  full : e.requests = MAX_REPORTS
  counted : inWindow a e.windowStart s.log = MAX_REPORTS
  started : e.windowStart ≤ now
  live : now < e.endsAt
  until_ : now + retry = e.endsAt
  stays : s.clock < e.endsAt → s.rows.get a = some e.row

/-- What an answer given after another owes it. -/
structure Later (new old : Commit S Row (Answer S)) : Prop where
  own : ∀ a now e retry, old.answer = .own a now e (.Refused retry) →
    ∀ x, new.answer.allowed a = some x → now + retry ≤ x.1
  newcomer : ∀ a now retry, old.answer = .newcomer a now (.Refused retry) →
    ∀ b n, new.answer = .newcomer b n .Allow → now + retry ≤ new.time

/-- The invariant of the table, the clock and the commits. -/
structure Kept (s : Shared S Row (Answer S)) : Prop where
  ceiling : s.rows.size ≤ MAX_TRACKED
  row : ∀ a r, s.rows.get a = some r → r.windowStart ≤ s.clock ∧ ∃ e, r = e.row ∧ Counted a e s.log
  gone : ∀ a, s.rows.get a = none → ∀ x ∈ admissions a s.log, x.2 + WINDOW ≤ s.clock
  within : ∀ a, ∀ x ∈ admissions a s.log, x.2 ≤ x.1 ∧ x.1 < x.2 + WINDOW
  apart : ∀ a, ∀ x ∈ admissions a s.log, ∀ y ∈ admissions a s.log,
    x.2 = y.2 ∨ x.2 + WINDOW ≤ y.2 ∨ y.2 + WINDOW ≤ x.2
  share : ∀ a start, inWindow a start s.log ≤ MAX_REPORTS
  own : ∀ c ∈ s.log, ∀ a now e retry, c.answer = .own a now e (.Refused retry) →
    OwnRefusal s a now e retry
  newcomer : ∀ c ∈ s.log, ∀ a now retry, c.answer = .newcomer a now (.Refused retry) →
    0 < retry ∧ (s.clock < now + retry → Full s.rows (now + retry)) ∧
      (c.time < now + retry → Full c.rows (now + retry) ∧ c.rows.size ≤ MAX_TRACKED)
  later : s.log.Pairwise Later

/-! ### What a commit does -/

/-- One row a transaction wrote, against the committed one. -/
inductive Touch (lockKey : S → K) (s : Shared S Row (Answer S)) (locks : List (Lock K)) (k : S) :
    Option Row → Prop where
  | delete (r : Row) (h : s.rows.get k = some r) (hends : r.endsAt ≤ s.clock) :
      Touch lockKey s locks k none
  | update (r r' : Row) (h : s.rows.get k = some r) (hlock : .address (lockKey k) ∈ locks)
      (hstart : r'.windowStart = r.windowStart ∨
        (r.endsAt ≤ s.clock ∧ r.endsAt ≤ r'.windowStart)) :
      Touch lockKey s locks k (some r')
  | insert (r' : Row) (h : s.rows.get k = none) (hlock : .address (lockKey k) ∈ locks)
      (htable : .table ∈ locks) : Touch lockKey s locks k (some r')

/-- A request of `a` decided on the reading `now` may be counted in the window from `start`. -/
structure Counts (s : Shared S Row (Answer S)) (a : S) (now start : ℤ) : Prop where
  time : now ≤ s.clock
  started : start ≤ now
  live : now < start + WINDOW
  latest : ∀ x ∈ admissions a s.log, x.2 = start ∨ x.2 + WINDOW ≤ start
  room : inWindow a start s.log < MAX_REPORTS

/-- Every newcomer refused so far has waited for long enough. -/
def Past (s : Shared S Row (Answer S)) : Prop :=
  ∀ c ∈ s.log, ∀ a now retry, c.answer = .newcomer a now (.Refused retry) → now + retry ≤ s.clock

/-- What a transaction about to answer `ans` has done. -/
structure Outcome (lockKey : S → K) (s : Shared S Row (Answer S))
    (t : Tx S Row (Lock K) (Pc S)) (ans : Answer S) : Prop where
  touch : ∀ k o, t.pending.get k = some o → Touch lockKey s t.locks k o
  ceiling : (t.visible s.rows).size ≤ MAX_TRACKED
  counts : ∀ a x, ans.allowed a = some x → Counts s a x.1 x.2 ∧
    ∃ e : Entry, t.pending.get a = some (some e.row) ∧ e.windowStart = x.2 ∧
      e.requests = inWindow a x.2 s.log + 1
  counted : ∀ a r, t.pending.get a = some (some r) → (ans.allowed a).isSome
  inserted : ∀ k r, s.rows.get k = none → t.pending.get k = some (some r) →
    ∃ now, ans = .newcomer k now .Allow
  own : ∀ a now e retry, ans = .own a now e (.Refused retry) → OwnRefusal s a now e retry
  newcomer : ∀ a now retry, ans = .newcomer a now (.Refused retry) →
    0 < retry ∧ (s.clock < now + retry → Full (t.visible s.rows) (now + retry))
  table : ∀ a now d, ans = .newcomer a now d → .table ∈ t.locks
  past : ∀ a now, ans = .newcomer a now .Allow → Past s

section Outcome

variable {lockKey : S → K} {s : Shared S Row (Answer S)} {t u : Tx S Row (Lock K) (Pc S)}
  {ans : Answer S}

theorem Outcome.pending_of_allowed (o : Outcome lockKey s t ans) {a : S} {x : ℤ × ℤ}
    (h : ans.allowed a = some x) : ∃ r, t.pending.get a = some (some r) := by
  obtain ⟨_, e, he, _⟩ := o.counts a x h
  exact ⟨e.row, he⟩

theorem Outcome.allowed_eq_none (o : Outcome lockKey s t ans) {a : S}
    (h : ∀ r, t.pending.get a ≠ some (some r)) : ans.allowed a = none := by
  rcases hx : ans.allowed a with _ | x
  · rfl
  · obtain ⟨r, hr⟩ := o.pending_of_allowed hx
    exact absurd hr (h r)

theorem get_visible (t : Tx S Row (Lock K) (Pc S)) (rows : FMap S Row) (k : S) :
    (t.visible rows).get k = (t.pending.get k).getD (rows.get k) := rfl

/-- The rows another view `p` sees keep their ends through a commit that inserts nothing, until the
    first of them ends. -/
theorem Outcome.ends_eq (o : Outcome lockKey s t ans) {p : FMap S (Option Row)} {u : ℤ}
    (hp : ∀ k o, t.pending.get k = some o → p.get k = none)
    (hinsert : ∀ k r, s.rows.get k = none → t.pending.get k ≠ some (some r))
    (hlive : ∀ k r, (s.rows.patch p).get k = some r → u ≤ r.endsAt) (hu : s.clock < u) (k : S) :
    (((t.visible s.rows).patch p).get k).map Row.endsAt
      = ((s.rows.patch p).get k).map Row.endsAt := by
  rw [FMap.get_patch, FMap.get_patch, get_visible]
  rcases hk : t.pending.get k with _ | o'
  · rfl
  · have hpk := hp k o' hk
    have hsee : ∀ r, s.rows.get k = some r → u ≤ r.endsAt := fun r hr =>
      hlive k r (by rw [FMap.get_patch, hpk]; exact hr)
    rw [hpk, Option.getD_none, Option.getD_none, Option.getD_some]
    cases o.touch k o' hk with
    | delete r h hends => have := hsee r h; omega
    | update r r' h _ hstart =>
      rcases hstart with hstart | ⟨hends, _⟩
      · simp [h, Row.endsAt, hstart]
      · have := hsee r h; omega
    | insert r' h _ _ => exact absurd hk (hinsert k r' h)

/-- STEP: a commit keeps the invariant. -/
theorem Outcome.kept (o : Outcome lockKey s t ans) (h : Kept s) : Kept (s.commit t ans) := by
  set c : Commit S Row (Answer S) := ⟨ans, t.visible s.rows, s.clock⟩ with hc
  -- a window refused before is not the one this request is counted in, and was over by then
  have hover : ∀ a e x, inWindow a e.windowStart s.log = MAX_REPORTS → ans.allowed a = some x →
      (e : Entry).endsAt ≤ x.2 := by
    intro a e x hfull hx
    obtain ⟨hcounts, _⟩ := o.counts a x hx
    have hpos : 0 < inWindow a e.windowStart s.log := by rw [hfull]; decide
    obtain ⟨y, hy, hye⟩ := exists_of_inWindow hpos
    rcases hcounts.latest y hy with heq | hle
    · have := hcounts.room
      rw [← heq, hye, hfull] at this
      exact absurd this (lt_irrefl _)
    · rw [Entry.endsAt, ← hye]; exact hle
  have hshare : ∀ a start, inWindow a start (c :: s.log) ≤ MAX_REPORTS := by
    intro a start
    rcases hx : ans.allowed a with _ | x
    · rw [inWindow, admissions_cons_none hx]; exact h.share a start
    · have hroom := (o.counts a x hx).1.room
      have hle := h.share a start
      rw [inWindow_cons_some hx]
      split
      · rename_i heq; subst heq; omega
      · omega
  refine ⟨o.ceiling, fun a r hr => ?_, fun a ha => ?_, fun a x hx => ?_, fun a x hx y hy => ?_,
    hshare, fun c' hc' a now e retry hans => ?_, fun c' hc' a now retry hans => ?_, ?_⟩
  · -- the row of `a`: the one before, or the one this commit counted its request in
    change (t.visible s.rows).get a = some r at hr
    rw [get_visible] at hr
    rcases ha : t.pending.get a with _ | _ | r'
    · rw [ha] at hr
      have hnone := o.allowed_eq_none (a := a) (by simp [ha])
      obtain ⟨hstart, e, he, hcounted⟩ := h.row a r hr
      refine ⟨hstart, e, he, hcounted.pos, hcounted.share, ?_, ?_⟩
      · show inWindow a e.windowStart (c :: s.log) = _
        rw [inWindow, admissions_cons_none hnone]; exact hcounted.counted
      · show ∀ x ∈ admissions a (c :: s.log), _
        rw [admissions_cons_none hnone]; exact hcounted.latest
    · rw [ha] at hr; exact absurd hr (by simp)
    · rw [ha] at hr
      obtain rfl := Option.some.inj hr
      obtain ⟨x, hx⟩ := Option.isSome_iff_exists.mp (o.counted a r' ha)
      obtain ⟨hcounts, e, he, hes, her⟩ := o.counts a x hx
      obtain rfl : r' = e.row := by simpa [ha] using he
      have hroom := hcounts.room
      refine ⟨?_, e, rfl, by omega, by omega, ?_, ?_⟩
      · rw [Entry.windowStart_row, hes]; exact hcounts.started.trans hcounts.time
      · show inWindow a e.windowStart (c :: s.log) = _
        rw [inWindow_cons_some hx, if_pos hes.symm, hes, her]
      · show ∀ y ∈ admissions a (c :: s.log), _
        rw [admissions_cons_some hx]
        intro y hy
        rcases List.mem_cons.mp hy with rfl | hy
        · exact Or.inl hes.symm
        · rw [hes]; exact hcounts.latest y hy
  · -- no row of `a`: none before either, or one whose window was over
    change (t.visible s.rows).get a = none at ha
    rw [get_visible] at ha
    have hnone : ans.allowed a = none := o.allowed_eq_none fun r hr => by simp [hr] at ha
    show ∀ x ∈ admissions a (c :: s.log), x.2 + WINDOW ≤ s.clock
    rw [admissions_cons_none hnone]
    rcases hp : t.pending.get a with _ | _ | r'
    · rw [hp] at ha; exact h.gone a ha
    · intro x hx
      cases o.touch a none hp with
      | delete r hr hends =>
        obtain ⟨_, e, rfl, hcounted⟩ := h.row a r hr
        rw [Row.endsAt, Entry.windowStart_row] at hends
        have hW : 0 < WINDOW := by decide
        rcases hcounted.latest x hx with heq | hle <;> omega
    · simp [hp] at ha
  · change x ∈ admissions a (c :: s.log) at hx
    rcases hx' : ans.allowed a with _ | y
    · rw [admissions_cons_none hx'] at hx; exact h.within a x hx
    · rw [admissions_cons_some hx'] at hx
      rcases List.mem_cons.mp hx with rfl | hx
      · obtain ⟨hcounts, _⟩ := o.counts a _ hx'
        exact ⟨hcounts.started, hcounts.live⟩
      · exact h.within a x hx
  · change x ∈ admissions a (c :: s.log) at hx
    change y ∈ admissions a (c :: s.log) at hy
    rcases hz : ans.allowed a with _ | z
    · rw [admissions_cons_none hz] at hx hy; exact h.apart a x hx y hy
    · rw [admissions_cons_some hz] at hx hy
      have hlatest := (o.counts a z hz).1.latest
      rcases List.mem_cons.mp hx with rfl | hxs
      · rcases List.mem_cons.mp hy with rfl | hys
        · exact Or.inl rfl
        · rcases hlatest y hys with heq | hle
          · exact Or.inl heq.symm
          · exact Or.inr (Or.inr hle)
      · rcases List.mem_cons.mp hy with rfl | hys
        · rcases hlatest x hxs with heq | hle
          · exact Or.inl heq
          · exact Or.inr (Or.inl hle)
        · exact h.apart a x hxs y hys
  · -- refusals on an address's own row
    rcases List.mem_cons.mp hc' with rfl | hc'
    · change ans = .own a now e (.Refused retry) at hans
      have hr := o.own a now e retry hans
      have hnone : ans.allowed a = none := by rw [hans]; rfl
      refine ⟨hr.full, ?_, hr.started, hr.live, hr.until_, fun hlt => ?_⟩
      · show inWindow a e.windowStart (c :: s.log) = _
        rw [inWindow, admissions_cons_none hnone]; exact hr.counted
      · have hrow := hr.stays hlt
        show (t.visible s.rows).get a = some e.row
        rw [get_visible]
        rcases hp : t.pending.get a with _ | _ | r'
        · exact hrow
        · cases o.touch a none hp with
          | delete r h' hends =>
            obtain rfl := Option.some.inj (hrow.symm.trans h')
            rw [Row.endsAt, Entry.windowStart_row] at hends
            change s.clock < e.endsAt at hlt
            rw [Entry.endsAt] at hlt
            omega
        · exact absurd (o.counted a r' hp) (by simp [hnone])
    · have hr := h.own c' hc' a now e retry hans
      refine ⟨hr.full, le_antisymm (hshare a _) ?_, hr.started, hr.live, hr.until_, fun hlt => ?_⟩
      · rw [← hr.counted]; exact inWindow_le_cons ..
      · have hrow := hr.stays hlt
        show (t.visible s.rows).get a = some e.row
        rw [get_visible]
        rcases hp : t.pending.get a with _ | _ | r'
        · exact hrow
        · cases o.touch a none hp with
          | delete r h' hends =>
            obtain rfl := Option.some.inj (hrow.symm.trans h')
            rw [Row.endsAt, Entry.windowStart_row] at hends
            change s.clock < e.endsAt at hlt
            rw [Entry.endsAt] at hlt
            omega
        · obtain ⟨x, hx⟩ := Option.isSome_iff_exists.mp (o.counted a r' hp)
          have := hover a e x hr.counted hx
          obtain ⟨hcounts, _⟩ := o.counts a x hx
          have := hcounts.started
          have := hcounts.time
          change s.clock < e.endsAt at hlt
          omega
  · -- newcomers refused by a full table
    rcases List.mem_cons.mp hc' with rfl | hc'
    · obtain ⟨hpos, hfull⟩ := o.newcomer a now retry hans
      exact ⟨hpos, hfull, fun hlt => ⟨hfull hlt, o.ceiling⟩⟩
    · obtain ⟨hpos, hfull, hsnap⟩ := h.newcomer c' hc' a now retry hans
      refine ⟨hpos, fun hlt => ?_, hsnap⟩
      change s.clock < now + retry at hlt
      have hfull := hfull hlt
      refine hfull.of_ends fun k => ?_
      refine o.ends_eq (p := FMap.empty) (u := now + retry) (fun _ _ _ => rfl) (fun k r hk hp => ?_)
        hfull.last hlt k
      obtain ⟨n, hn⟩ := o.inserted k r hk hp
      have := o.past k n hn c' hc' a now retry hans
      omega
  · refine List.pairwise_cons.mpr ⟨fun c' hc' => ⟨fun a now e retry hans x hx => ?_,
      fun a now retry hans b n hn => ?_⟩, h.later⟩
    · have hr := h.own c' hc' a now e retry hans
      have := hover a e x hr.counted hx
      have := (o.counts a x hx).1.started
      have := hr.until_
      omega
    · exact o.past b n hn c' hc' a now retry hans

end Outcome

end Home.ReportThrottle
