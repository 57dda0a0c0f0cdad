import ManageOurHome.Auth.ThrottleAlone

/-! @src apps/api/src/auth/throttle.rs | layer:proof | family:rate-limit

    What `login_throttle` keeps, whatever the interleaving: its ceiling, every address's share, what
    a row can hold, and a count at least the number of attempts admitted since the row's window
    started. `Outcome` says once what a transaction about to commit has done. -/

namespace Home.Throttle

open FiniteMap ReadCommitted

variable {S P K : Type*} [DecidableEq S] [DecidableEq P]

/-! ### What a row can hold -/

/-- A row the store can have written by `now`. -/
structure Sound (now : ℤ) (r : Row) : Prop where
  started : r.windowStart ≤ now
  count : r.attempts.val ≤ MAX_FAILURES
  unlocked : r.lockedUntil = none → r.attempts.val < MAX_FAILURES
  locked : ∀ u, r.lockedUntil = some u →
    r.windowStart + LOCKOUT ≤ u ∧ u ≤ r.windowStart + WINDOW + LOCKOUT

theorem Sound.mono {now now' : ℤ} {r : Row} (h : Sound now r) (hle : now ≤ now') : Sound now' r :=
  ⟨h.started.trans hle, h.count, h.unlocked, h.locked⟩

theorem Entry.isStale_mono {e : Entry} {now now' : ℤ} (h : e.isStale now = true)
    (hle : now ≤ now') : e.isStale now' = true := by
  rw [isStale, Bool.and_eq_true, Bool.or_eq_true, Option.isNone_iff_eq_none, decide_eq_true_iff,
    lockedAt, Option.filter_eq_none_iff] at h ⊢
  obtain ⟨hunlocked, hover⟩ := h
  refine ⟨fun u hu => ?_, hover.imp_right fun hw => ?_⟩
  · have := hunlocked u hu
    simp only [decide_eq_true_eq] at this ⊢
    omega
  · rw [since] at hw ⊢
    omega

/-- What an admission on a held pair does: refuse it while it is locked; start it afresh when it is
    stale; else count the attempt, and lock the pair at `MAX_FAILURES`. -/
theorem Entry.admission_cases (e : Entry) (now : ℤ) :
    (∃ u, e.lockedAt now = some u ∧ e.admission now = (e, .Locked (since u now))) ∨
    (e.isStale now = true ∧ e.admission now = (Entry.first now, .Allow)) ∨
    (e.lockedAt now = none ∧ e.isStale now = false ∧
      e.admission now = (⟨e.attempts + 1, e.windowStart,
        if MAX_FAILURES ≤ e.attempts + 1 then some (now + LOCKOUT) else e.lockedUntil⟩, .Allow)) := by
  rcases hu : e.lockedAt now with _ | u
  · rcases hs : e.isStale now with _ | _
    · refine Or.inr (Or.inr ⟨rfl, rfl, ?_⟩)
      simp only [admission, hu, hs, Bool.false_eq_true, if_false]
      split <;> rfl
    · refine Or.inr (Or.inl ⟨rfl, ?_⟩)
      simp [admission, hu, hs, fresh, first, MAX_FAILURES]
  · exact Or.inl ⟨u, rfl, by simp only [admission, hu]⟩

/-- An attempt admitted on a held pair, against the row it was read from. -/
structure Admitted (now : ℤ) (r r' : Row) : Prop where
  sound : Sound now r'
  change : (r'.windowStart = r.windowStart ∧ r'.attempts.val = r.attempts.val + 1) ∨
    (r.entry.isStale now = true ∧ r.windowStart < r'.windowStart ∧ 1 ≤ r'.attempts.val)

theorem attempts_first (now : ℤ) : (Entry.first now).row.attempts.val = 1 := rfl

theorem sound_first (now : ℤ) : Sound now (Entry.first now).row where
  started := le_refl _
  count := by rw [attempts_first]; decide
  unlocked _ := by rw [attempts_first]; decide
  locked u hu := absurd hu (by simp [Entry.first])

/-- A pair is either left as it is and refused, or admitted and written back. -/
theorem Sound.admission {now : ℤ} {r : Row} (h : Sound now r) :
    ((r.entry.admission now).1 = r.entry ∧ (r.entry.admission now).2 ≠ .Allow) ∨
    ((r.entry.admission now).1 ≠ r.entry ∧ (r.entry.admission now).2 = .Allow ∧
      Admitted now r (r.entry.admission now).1.row) := by
  have hW : 0 < WINDOW := by decide
  have hL : 0 < LOCKOUT := by decide
  have hstart : r.entry.windowStart = r.windowStart := rfl
  have huntil : r.entry.lockedUntil = r.lockedUntil := rfl
  have hcount : r.entry.attempts = r.attempts.val := rfl
  rcases r.entry.admission_cases now with ⟨u, _, heq⟩ | ⟨hstale, heq⟩ | ⟨hopen, hlive, heq⟩
  · rw [heq]; exact Or.inl ⟨rfl, by simp⟩
  · -- a stale pair: its window started before `now`, or it would not be over
    have hlt : r.windowStart < now := by
      rw [Entry.isStale, Bool.and_eq_true, Bool.or_eq_true, Option.isNone_iff_eq_none,
        decide_eq_true_iff, Entry.lockedAt, Option.filter_eq_none_iff, hstart, huntil] at hstale
      obtain ⟨hunlocked, hlocked | hover⟩ := hstale
      · obtain ⟨u, hu⟩ := Option.isSome_iff_exists.mp hlocked
        have := hunlocked u hu
        have := h.locked u hu
        simp only [decide_eq_true_eq] at *
        omega
      · rw [since] at hover
        omega
    rw [heq]
    refine Or.inr ⟨fun he => ?_, rfl, sound_first now, Or.inr ⟨hstale, ?_, ?_⟩⟩
    · have := congrArg Entry.windowStart he
      rw [hstart] at this
      exact absurd this (ne_of_gt hlt)
    · exact hlt
    · exact (attempts_first now).ge
  · -- an open pair: no lock yet, and its window under way
    have hnone : r.lockedUntil = none := by
      rcases hu : r.lockedUntil with _ | u
      · rfl
      · rw [Entry.isStale, hopen, huntil, hu] at hlive
        simp at hlive
    have hin : now ≤ r.windowStart + WINDOW := by
      rw [Entry.isStale, hopen, huntil, hnone, hstart] at hlive
      have : ¬WINDOW < since now r.windowStart := by simpa using hlive
      rw [since] at this
      omega
    have hroom := h.unlocked hnone
    have hmax : MAX_FAILURES = 10 := rfl
    have hfits : r.entry.attempts + 1 < 2 ^ 31 := by rw [hcount]; omega
    rw [heq]
    refine Or.inr ⟨fun he => ?_, rfl, ⟨h.started, ?_, ?_, ?_⟩, Or.inl ⟨rfl, ?_⟩⟩
    · have := congrArg Entry.attempts he
      simp at this
    · rw [Entry.attempts_row hfits, hcount]
      show r.attempts.val + 1 ≤ MAX_FAILURES
      omega
    · rw [Entry.attempts_row hfits, hcount, Entry.lockedUntil_row, huntil, hnone]
      intro hu
      split at hu
      · exact absurd hu (by simp)
      · show r.attempts.val + 1 < MAX_FAILURES
        omega
    · simp only [Entry.lockedUntil_row, Entry.windowStart_row, huntil, hnone, hstart]
      intro u hu
      have := h.started
      split at hu
      · obtain rfl := Option.some.inj hu
        exact ⟨by omega, by omega⟩
      · exact absurd hu (by simp)
    · rw [Entry.attempts_row hfits, hcount]

/-! ### What the commits tell of one pair -/

/-- Whether the answer admits an attempt on the pair `k`. -/
def Answer.allows (k : S × P) : Answer S P → Bool
  | .decided q _ .Allow _ => q.key = k
  | _ => false

/-- How many attempts on `k` were admitted since its row had the window starting at `start`: as far
    back as the commits go that left it so. -/
def allowedSince (k : S × P) (start : ℤ) (log : List (Commit (S × P) Row (Answer S P))) : ℕ :=
  (log.takeWhile fun c => (c.rows.get k).map Row.windowStart = some start).countP
    fun c => c.answer.allows k

theorem allowedSince_cons_of_ne {k : S × P} {start : ℤ} {c : Commit (S × P) Row (Answer S P)}
    (h : (c.rows.get k).map Row.windowStart ≠ some start) (log) :
    allowedSince k start (c :: log) = 0 := by
  rw [allowedSince, List.takeWhile_cons, if_neg (by simpa using h)]
  rfl

theorem allowedSince_cons_of_eq {k : S × P} {start : ℤ} {c : Commit (S × P) Row (Answer S P)}
    (h : (c.rows.get k).map Row.windowStart = some start) (log) :
    allowedSince k start (c :: log)
      = allowedSince k start log + if c.answer.allows k then 1 else 0 := by
  rw [allowedSince, List.takeWhile_cons, if_pos (by simpa using h), List.countP_cons, allowedSince]

/-- Before the last commit left the row with that window, none was counted in it. -/
theorem allowedSince_eq_zero {k : S × P} {start : ℤ}
    {log : List (Commit (S × P) Row (Answer S P))}
    (h : ∀ c ∈ log.head?, (c.rows.get k).map Row.windowStart ≠ some start) :
    allowedSince k start log = 0 := by
  rcases log with _ | ⟨c, log⟩
  · rfl
  · exact allowedSince_cons_of_ne (h c rfl) log

/-! ### Evictions -/

/-- The rule of `make_room`, on the rows `seen`: they are full of live pairs, and `k` is the first to
    go of the addresses holding the most. -/
structure EvictedUnder (seen : FMap (S × P) Entry) (now : ℤ) (k : S × P) (e : Entry) : Prop where
  full : (seen.filter fun _ e => live now e).size = MAX_TRACKED
  victim : Table.Victim (seen.filter fun _ e => live now e) now k e

/-- Why the rows `removed` were chosen, on the table as it was loaded. -/
def Chosen (before : Table S P) (now : ℤ) (removed : List (S × P)) : Prop :=
  ∀ k ∈ removed, ∃ e, before.rows.get k = some e ∧
    (e.isStale now = true ∨ EvictedUnder before.rows now k e)

/-! ### The invariant -/

/-- The invariant of the table, the clock and the commits. -/
structure Kept (s : Shared (S × P) Row (Answer S P)) : Prop where
  ceiling : s.rows.size ≤ MAX_TRACKED
  share : ∀ scope, (s.rows.under scope).size ≤ MAX_PAIRS_PER_IP
  sound : ∀ k r, s.rows.get k = some r → Sound s.clock r
  counted : ∀ k r, s.rows.get k = some r → allowedSince k r.windowStart s.log ≤ r.attempts.val
  last : ∀ c ∈ s.log.head?, c.rows = s.rows

theorem kept_init (c : ℤ) : Kept (⟨FMap.empty, c, []⟩ : Shared (S × P) Row (Answer S P)) where
  ceiling := Nat.zero_le _
  share _ := by rw [FMap.size_eq_zero.mpr fun _ => rfl]; exact Nat.zero_le _
  sound _ _ h := absurd h (by simp)
  counted _ _ h := absurd h (by simp)
  last _ h := absurd h (by simp)

theorem Kept.tick {s : Shared (S × P) Row (Answer S P)} {c : ℤ} (h : Kept s) (hc : s.clock ≤ c) :
    Kept { s with clock := c } :=
  ⟨h.ceiling, h.share, fun k r hr => (h.sound k r hr).mono hc, h.counted, h.last⟩

/-- Every row kept has its lock bounded as `purge_cutoff` counts on. -/
theorem Kept.lockBounded {s : Shared (S × P) Row (Answer S P)} (h : Kept s) : LockBounded s.rows :=
  fun k r hr u hu => ((h.sound k r hr).locked u hu).2

/-! ### What a commit does -/

/-- Why a transaction deleted the row `r` of `k`. -/
inductive Deleted (s : Shared (S × P) Row (Answer S P)) (ans : Answer S P) (k : S × P) (r : Row) :
    Prop where
  | stale (h : r.entry.isStale s.clock = true)
  | cleared (h : ans = .cleared k.1 k.2)
  | swept (q : Request S P) (now : ℤ) (d : Decision) (sw : Sweep S P)
      (hans : ans = .decided q now d (some sw)) (hnow : now ≤ s.clock)
      (hchosen : Chosen sw.before now sw.removed) (hk : k ∈ sw.removed) (hseen : sw.seen.get k = some r)

/-- What a transaction about to answer `ans` has done. -/
structure Outcome (lockKey : S → K) (s : Shared (S × P) Row (Answer S P))
    (t : Tx (S × P) Row (Lock K) (Pc S P)) (ans : Answer S P) : Prop where
  ceiling : (t.visible s.rows).size ≤ MAX_TRACKED
  share : ∀ scope, ((t.visible s.rows).under scope).size ≤ MAX_PAIRS_PER_IP
  deleted : ∀ k, t.pending.get k = some none → ∃ r, s.rows.get k = some r ∧ Deleted s ans k r
  written : ∀ k r', t.pending.get k = some (some r') → .address (lockKey k.1) ∈ t.locks ∧
    ans.allows k = true ∧
    ((s.rows.get k = none ∧ .table ∈ t.locks ∧ Sound s.clock r' ∧ 1 ≤ r'.attempts.val) ∨
      ∃ r now, s.rows.get k = some r ∧ now ≤ s.clock ∧ Admitted now r r')
  allowed : ∀ k, ans.allows k = true → ∃ r', t.pending.get k = some (some r')

section Outcome

variable {lockKey : S → K} {s : Shared (S × P) Row (Answer S P)}
  {t : Tx (S × P) Row (Lock K) (Pc S P)} {ans : Answer S P}

theorem get_visible (t : Tx (S × P) Row (Lock K) (Pc S P)) (rows : FMap (S × P) Row) (k : S × P) :
    (t.visible rows).get k = (t.pending.get k).getD (rows.get k) := rfl

/-- STEP: a commit keeps the invariant. -/
theorem Outcome.kept (o : Outcome lockKey s t ans) (h : Kept s) : Kept (s.commit t ans) := by
  refine ⟨o.ceiling, o.share, fun k r' hr => ?_, fun k r' hr => ?_, fun c hc => ?_⟩
  · change (t.visible s.rows).get k = some r' at hr
    rw [get_visible] at hr
    rcases hp : t.pending.get k with _ | _ | r''
    · rw [hp] at hr; exact h.sound k r' hr
    · rw [hp] at hr; exact absurd hr (by simp)
    · rw [hp] at hr
      obtain rfl := Option.some.inj hr
      obtain ⟨_, _, ⟨_, _, hsound, _⟩ | ⟨r, now, _, hnow, hadm⟩⟩ := o.written k _ hp
      · exact hsound
      · exact hadm.sound.mono hnow
  · change (t.visible s.rows).get k = some r' at hr
    show allowedSince k r'.windowStart (⟨ans, t.visible s.rows, s.clock⟩ :: s.log) ≤ _
    rw [allowedSince_cons_of_eq (by rw [hr]; rfl)]
    rw [get_visible] at hr
    rcases hp : t.pending.get k with _ | _ | r''
    · -- another transaction's commit leaves the row, and admits nothing on it
      rw [hp] at hr
      have hnot : ans.allows k = false := by
        rcases ha : ans.allows k with _ | _
        · rfl
        · obtain ⟨r'', hr''⟩ := o.allowed k ha
          exact absurd (hp.symm.trans hr'') (by simp)
      rw [if_neg (by simp [hnot])]
      exact h.counted k r' hr
    · rw [hp] at hr; exact absurd hr (by simp)
    · rw [hp] at hr
      obtain rfl := Option.some.inj hr
      obtain ⟨_, hallows, hwhy⟩ := o.written k _ hp
      rw [if_pos hallows]
      rcases hwhy with ⟨hnone, _, _, hpos⟩ | ⟨r, now, hrow, _, hadm⟩
      · rw [allowedSince_eq_zero fun c hc => by rw [h.last c hc, hnone]; simp]
        exact hpos
      · rcases hadm.change with ⟨hstart, hcount⟩ | ⟨_, hlater, hpos⟩
        · rw [hstart, hcount]
          have := h.counted k r hrow
          omega
        · rw [allowedSince_eq_zero fun c hc => by
            rw [h.last c hc, hrow]
            simp only [Option.map_some, ne_eq, Option.some.injEq]
            omega]
          exact hpos
  · obtain rfl : c = ⟨ans, t.visible s.rows, s.clock⟩ := by
      simpa [Shared.commit, eq_comm] using hc
    rfl

end Outcome

end Home.Throttle
