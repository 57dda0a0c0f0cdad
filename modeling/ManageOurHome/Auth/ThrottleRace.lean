import ManageOurHome.Auth.ThrottleKept

/-! @src apps/api/src/auth/throttle.rs | layer:proof | family:rate-limit

    The store under any interleaving. `Local` is what a transaction knows at each of its statements:
    it survives time passing and another transaction's commit, each statement takes it to the next,
    and at the end it gives `Outcome`. The bounds hold in every interleaving. An attempt admitted
    stays counted in those where no deletion by key runs on a row another transaction changed since
    it was loaded: `Unchanged` is that condition. -/

namespace Home.Throttle

open FiniteMap ReadCommitted

variable {S P K τ : Type*} [DecidableEq S] [DecidableEq P]

/-! ### What a transaction under way knows -/

/-- Every row written is deleted, and stale. -/
def Deletes (s : Shared (S × P) Row (Answer S P)) (pending : FMap (S × P) (Option Row)) : Prop :=
  ∀ k o, pending.get k = some o →
    o = none ∧ ∃ r, s.rows.get k = some r ∧ r.entry.isStale s.clock = true

/-- The row `r` of `k` is named by the deletion `sweep`, which ran on it. -/
def Named (sweep : Option (Sweep S P)) (now : ℤ) (k : S × P) (r : Row) : Prop :=
  ∃ sw, sweep = some sw ∧ Chosen sw.before now sw.removed ∧ k ∈ sw.removed ∧ sw.seen.get k = some r

/-- A row deleted: it is stale, or named by the deletion `sweep`. -/
def Gone (s : Shared (S × P) Row (Answer S P)) (sweep : Option (Sweep S P)) (now : ℤ) (k : S × P)
    (o : Option Row) : Prop :=
  o = none ∧ ∃ r, s.rows.get k = some r ∧ (r.entry.isStale s.clock = true ∨ Named sweep now k r)

/-- Under the lock of `scope`, with nothing written. -/
structure Quiet (lockKey : S → K) (t : Tx (S × P) Row (Lock K) (Pc S P)) (scope : S) : Prop where
  pending : t.pending = FMap.empty
  lock : .address (lockKey scope) ∈ t.locks

/-- Under both locks, the pair has no row. -/
structure Newcomer (lockKey : S → K) (s : Shared (S × P) Row (Answer S P))
    (t : Tx (S × P) Row (Lock K) (Pc S P)) (q : Request S P) (now : ℤ) : Prop where
  lock : .address (lockKey q.scope) ∈ t.locks
  table : .table ∈ t.locks
  time : now ≤ s.clock
  absent : s.rows.get q.key = none

/-- Room for one more row, in the table and under `scope`. -/
structure Room (m : FMap (S × P) Row) (scope : S) : Prop where
  size : m.size < MAX_TRACKED
  share : (m.under scope).size < MAX_PAIRS_PER_IP

/-- About to write what a refusal at the share changed: stale rows of the address. -/
structure ShareWrite (lockKey : S → K) (s : Shared (S × P) Row (Answer S P))
    (t : Tx (S × P) Row (Lock K) (Pc S P)) (q : Request S P) (now : ℤ) (changes : Changes S P)
    (d : Decision) : Prop where
  quiet : Quiet lockKey t q.scope
  time : now ≤ s.clock
  refused : d ≠ .Allow
  written : changes.written = []
  removed : ∀ k ∈ changes.removed, k.1 = q.scope ∧
    ∀ r, s.rows.get k = some r → r.entry.isStale now = true

/-- About to write what an admission under the table's lock changed. -/
structure TableWrite (lockKey : S → K) (s : Shared (S × P) Row (Answer S P))
    (t : Tx (S × P) Row (Lock K) (Pc S P)) (q : Request S P) (now : ℤ) (before : Table S P)
    (changes : Changes S P) (d : Decision) : Prop where
  newcomer : Newcomer lockKey s t q now
  deletes : Deletes s t.pending
  chosen : Chosen before now changes.removed
  written : (d ≠ .Allow ∧ changes.written = []) ∨
    (d = .Allow ∧ changes.written = [(q.key, Entry.first now)] ∧ before.rows.get q.key = none ∧
      Room ((t.visible s.rows).filter fun k _ => k ∉ changes.removed) q.scope)

/-- About to update the row of a held pair, which has only gone since it was read. -/
structure HeldWrite (lockKey : S → K) (s : Shared (S × P) Row (Answer S P))
    (t : Tx (S × P) Row (Lock K) (Pc S P)) (q : Request S P) (now : ℤ) (before : Table S P)
    (key : S × P) (entry : Entry) (rest : List ((S × P) × Entry)) (d : Decision) : Prop where
  quiet : Quiet lockKey t q.scope
  time : now ≤ s.clock
  key_eq : key = q.key
  rest_eq : rest = []
  allowed : d = .Allow
  held : (before.get key.1 key.2).isSome
  row : ∃ r, (s.rows.get key = some r ∨ s.rows.get key = none) ∧ Admitted now r entry.row

/-- About to insert a new pair. -/
structure TableInsert (lockKey : S → K) (s : Shared (S × P) Row (Answer S P))
    (t : Tx (S × P) Row (Lock K) (Pc S P)) (q : Request S P) (now : ℤ) (before : Table S P)
    (key : S × P) (entry : Entry) (rest : List ((S × P) × Entry)) (d : Decision)
    (sweep : Option (Sweep S P)) : Prop where
  newcomer : Newcomer lockKey s t q now
  gone : ∀ k o, t.pending.get k = some o → Gone s sweep now k o
  key_eq : key = q.key
  rest_eq : rest = []
  entry_eq : entry = Entry.first now
  allowed : d = .Allow
  absent : before.rows.get key = none
  room : Room (t.visible s.rows) q.scope

/-- An attempt on a held pair, counted in its row. -/
structure Updated (lockKey : S → K) (s : Shared (S × P) Row (Answer S P))
    (t : Tx (S × P) Row (Lock K) (Pc S P)) (q : Request S P) (now : ℤ) : Prop where
  lock : .address (lockKey q.scope) ∈ t.locks
  time : now ≤ s.clock
  row : ∃ r r', t.pending = FMap.one q.key (some r') ∧ s.rows.get q.key = some r ∧ Admitted now r r'

/-- A new pair's row, inserted. -/
structure Inserted (lockKey : S → K) (s : Shared (S × P) Row (Answer S P))
    (t : Tx (S × P) Row (Lock K) (Pc S P)) (q : Request S P) (now : ℤ)
    (sweep : Option (Sweep S P)) : Prop where
  newcomer : Newcomer lockKey s t q now
  row : t.pending.get q.key = some (some (Entry.first now).row)
  gone : ∀ k o, k ≠ q.key → t.pending.get k = some o → Gone s sweep now k o
  size : (t.visible s.rows).size ≤ MAX_TRACKED
  share : ((t.visible s.rows).under q.scope).size ≤ MAX_PAIRS_PER_IP

/-- What a transaction has done when it is about to answer. -/
def Finished (lockKey : S → K) (s : Shared (S × P) Row (Answer S P))
    (t : Tx (S × P) Row (Lock K) (Pc S P)) : Answer S P → Prop
  | .decided q now d sweep =>
      (d ≠ .Allow ∧ now ≤ s.clock ∧ ∀ k o, t.pending.get k = some o → Gone s sweep now k o) ∨
      (d = .Allow ∧ Updated lockKey s t q now) ∨ (d = .Allow ∧ Inserted lockKey s t q now sweep)
  | .cleared scope pair => ∀ k o, t.pending.get k = some o →
      k = (scope, pair) ∧ o = none ∧ ∃ r, s.rows.get k = some r
  | .purged => Deletes s t.pending

/-- The assertion at each point of a transaction. -/
def Local (lockKey : S → K) (s : Shared (S × P) Row (Answer S P))
    (t : Tx (S × P) Row (Lock K) (Pc S P)) : Prop :=
  match t.at_ with
  | .opened _ => t.pending = FMap.empty
  | .locked q => Quiet lockKey t q.scope
  | .timed q now => Quiet lockKey t q.scope ∧ now ≤ s.clock ∧
      ∀ r, s.rows.get q.key = some r → Sound now r
  | .deleting q now _ changes .share d => ShareWrite lockKey s t q now changes d
  | .deleting _ _ _ _ .held _ => False
  | .deleting q now before changes .table d => TableWrite lockKey s t q now before changes d
  | .writing _ _ _ _ _ _ .share _ _ => False
  | .writing q now before key entry rest .held d _ =>
      HeldWrite lockKey s t q now before key entry rest d
  | .writing q now before key entry rest .table d sweep =>
      TableInsert lockKey s t q now before key entry rest d sweep
  | .newPair q => Quiet lockKey t q.scope ∧ s.rows.get q.key = none
  | .tableLocked q => Quiet lockKey t q.scope ∧ .table ∈ t.locks ∧ s.rows.get q.key = none
  | .purging q now => t.pending = FMap.empty ∧ Newcomer lockKey s t q now
  | .counting q now => Deletes s t.pending ∧ Newcomer lockKey s t q now
  | .loadingAll q now => Deletes s t.pending ∧ Newcomer lockKey s t q now
  | .loadingAddress q now total => Deletes s t.pending ∧ Newcomer lockKey s t q now ∧
      total < MAX_TRACKED ∧ (t.visible s.rows).size ≤ total
  | .done ans => Finished lockKey s t ans
  | .failed => True
  | .succeeded _ _ => t.pending = FMap.empty
  | .clearing scope _ => Quiet lockKey t scope
  | .purge => t.pending = FMap.empty
  | .purgeRun now => t.pending = FMap.empty ∧ now ≤ s.clock

theorem Deletes.gone {s : Shared (S × P) Row (Answer S P)} {p : FMap (S × P) (Option Row)}
    (h : Deletes s p) (sweep : Option (Sweep S P)) (now : ℤ) {k : S × P} {o : Option Row}
    (hk : p.get k = some o) : Gone s sweep now k o := by
  obtain ⟨ho, r, hr, hstale⟩ := h k o hk
  exact ⟨ho, r, hr, Or.inl hstale⟩

omit [DecidableEq S] [DecidableEq P] in
theorem deletes_empty (s : Shared (S × P) Row (Answer S P)) : Deletes s FMap.empty :=
  fun k o h => absurd h (by simp)

/-- Deleting rows leaves the others as they are. -/
theorem get_of_deletes {s : Shared (S × P) Row (Answer S P)} {t : Tx (S × P) Row (Lock K) (Pc S P)}
    (h : ∀ k o, t.pending.get k = some o → o = none) {k : S × P} {r : Row}
    (hk : (t.visible s.rows).get k = some r) : s.rows.get k = some r := by
  rw [get_visible] at hk
  rcases hp : t.pending.get k with _ | o
  · rwa [hp] at hk
  · rw [hp, h k o hp] at hk
    exact absurd hk (by simp)

theorem Room.of_get {m m' : FMap (S × P) Row} {scope : S} (h : Room m scope)
    (hget : ∀ k, (m'.get k).isSome → (m.get k).isSome) : Room m' scope where
  size := (FMap.size_le_of_get hget).trans_lt h.size
  share := (FMap.size_le_of_get fun p hp => hget (scope, p) hp).trans_lt h.share

/-- What the purge deletes is stale. -/
theorem deletes_expired {s : Shared (S × P) Row (Answer S P)} (hk : Kept s) {now : ℤ}
    (hnow : now ≤ s.clock) : Deletes s (FMap.deleteWhere (expired now) s.rows) := by
  intro k o h
  obtain ⟨rfl, r, hr, hexp⟩ := FMap.get_deleteWhere.mp h
  exact ⟨rfl, r, hr, Entry.isStale_mono (hk.lockBounded.isStale_of_expired hr hexp) hnow⟩

/-! ### Time passing -/

omit [DecidableEq S] [DecidableEq P] in
theorem Deletes.tick {s : Shared (S × P) Row (Answer S P)} {p : FMap (S × P) (Option Row)} {c : ℤ}
    (h : Deletes s p) (hc : s.clock ≤ c) : Deletes { s with clock := c } p := fun k o hk => by
  obtain ⟨ho, r, hr, hstale⟩ := h k o hk
  exact ⟨ho, r, hr, Entry.isStale_mono hstale hc⟩

theorem Gone.tick {s : Shared (S × P) Row (Answer S P)} {sweep : Option (Sweep S P)} {now c : ℤ}
    {k : S × P} {o : Option Row} (h : Gone s sweep now k o) (hc : s.clock ≤ c) :
    Gone { s with clock := c } sweep now k o := by
  obtain ⟨ho, r, hr, hwhy⟩ := h
  exact ⟨ho, r, hr, hwhy.imp_left fun hs => Entry.isStale_mono hs hc⟩

omit [DecidableEq S] [DecidableEq P] in
theorem Newcomer.tick {lockKey : S → K} {s : Shared (S × P) Row (Answer S P)}
    {t : Tx (S × P) Row (Lock K) (Pc S P)} {q : Request S P} {now c : ℤ}
    (h : Newcomer lockKey s t q now) (hc : s.clock ≤ c) :
    Newcomer lockKey { s with clock := c } t q now :=
  ⟨h.lock, h.table, h.time.trans hc, h.absent⟩

theorem Local.tick {lockKey : S → K} {s : Shared (S × P) Row (Answer S P)}
    {t : Tx (S × P) Row (Lock K) (Pc S P)} {c : ℤ} (h : Local lockKey s t) (hc : s.clock ≤ c) :
    Local lockKey { s with clock := c } t := by
  obtain ⟨pc, pending, locks⟩ := t
  cases pc with
  | opened | locked | newPair | tableLocked | failed | succeeded | clearing | purge => exact h
  | timed q now => exact ⟨h.1, h.2.1.trans hc, h.2.2⟩
  | deleting q now before changes path d =>
    cases path with
    | share =>
      have hw : ShareWrite lockKey s _ q now changes d := h
      exact ⟨hw.quiet, hw.time.trans hc, hw.refused, hw.written, hw.removed⟩
    | held => exact h
    | table =>
      have hw : TableWrite lockKey s _ q now before changes d := h
      exact ⟨hw.newcomer.tick hc, hw.deletes.tick hc, hw.chosen, hw.written⟩
  | writing q now before key entry rest path d sweep =>
    cases path with
    | share => exact h
    | held =>
      have hw : HeldWrite lockKey s _ q now before key entry rest d := h
      exact ⟨hw.quiet, hw.time.trans hc, hw.key_eq, hw.rest_eq, hw.allowed, hw.held, hw.row⟩
    | table =>
      have hw : TableInsert lockKey s _ q now before key entry rest d sweep := h
      exact ⟨hw.newcomer.tick hc, fun k o hk => (hw.gone k o hk).tick hc, hw.key_eq, hw.rest_eq,
        hw.entry_eq, hw.allowed, hw.absent, hw.room⟩
  | purging q now => exact ⟨h.1, h.2.tick hc⟩
  | counting q now => exact ⟨h.1.tick hc, h.2.tick hc⟩
  | loadingAll q now => exact ⟨h.1.tick hc, h.2.tick hc⟩
  | loadingAddress q now total => exact ⟨h.1.tick hc, h.2.1.tick hc, h.2.2⟩
  | purgeRun now => exact ⟨h.1, h.2.trans hc⟩
  | done ans =>
    rcases ans with ⟨q, now, d, sweep⟩ | ⟨scope, pair⟩ | _
    · rcases h with ⟨hd, hnow, hgone⟩ | ⟨hd, hu⟩ | ⟨hd, hi⟩
      · exact Or.inl ⟨hd, hnow.trans hc, fun k o hk => (hgone k o hk).tick hc⟩
      · exact Or.inr (Or.inl ⟨hd, hu.lock, hu.time.trans hc, hu.row⟩)
      · exact Or.inr (Or.inr ⟨hd, hi.newcomer.tick hc, hi.row,
          fun k o hne hk => (hi.gone k o hne hk).tick hc, hi.size, hi.share⟩)
    · exact h
    · exact Deletes.tick h hc

/-! ### Another transaction's commit -/

section Interference

variable {lockKey : S → K} {s : Shared (S × P) Row (Answer S P)}
  {t u : Tx (S × P) Row (Lock K) (Pc S P)} {ans : Answer S P}

/-- Nothing but a deletion reaches the rows of an address whose lock another transaction holds. -/
theorem Outcome.get_of_lock (o : Outcome lockKey s t ans) (h : t.Apart u) {k : S × P}
    (hlock : .address (lockKey k.1) ∈ u.locks) :
    (s.commit t ans).rows.get k = s.rows.get k ∨ (s.commit t ans).rows.get k = none := by
  show (t.visible s.rows).get k = _ ∨ (t.visible s.rows).get k = _
  rw [get_visible]
  rcases hp : t.pending.get k with _ | _ | r'
  · exact Or.inl rfl
  · exact Or.inr rfl
  · exact absurd hlock (h.locks _ (o.written k r' hp).1)

theorem Outcome.absent_of_lock (o : Outcome lockKey s t ans) (h : t.Apart u) {k : S × P}
    (hlock : .address (lockKey k.1) ∈ u.locks) (hk : s.rows.get k = none) :
    (s.commit t ans).rows.get k = none := by
  rcases o.get_of_lock h hlock with heq | hnone
  · rw [heq, hk]
  · exact hnone

theorem Outcome.get_of_some (o : Outcome lockKey s t ans) (h : t.Apart u) {k : S × P} {r : Row}
    (hlock : .address (lockKey k.1) ∈ u.locks) (hk : (s.commit t ans).rows.get k = some r) :
    s.rows.get k = some r := by
  rcases o.get_of_lock h hlock with heq | hnone
  · rw [← heq, hk]
  · exact absurd (hnone.symm.trans hk) (by simp)

theorem get_of_pending (h : t.Apart u) {k : S × P} {o' : Option Row}
    (hk : u.pending.get k = some o') : (s.commit t ans).rows.get k = s.rows.get k := by
  show (t.visible s.rows).get k = _
  rw [get_visible, h.get_eq_none hk, Option.getD_none]

theorem Deletes.commit (h : t.Apart u) (hd : Deletes s u.pending) :
    Deletes (s.commit t ans) u.pending := fun k o' hk => by
  obtain ⟨ho, r, hr, hstale⟩ := hd k o' hk
  exact ⟨ho, r, (get_of_pending h hk).trans hr, hstale⟩

theorem Gone.commit (h : t.Apart u) {sweep : Option (Sweep S P)} {now : ℤ} {k : S × P}
    {o' : Option Row} (hk : u.pending.get k = some o') (hg : Gone s sweep now k o') :
    Gone (s.commit t ans) sweep now k o' := by
  obtain ⟨ho, r, hr, hwhy⟩ := hg
  exact ⟨ho, r, (get_of_pending h hk).trans hr, hwhy⟩

/-- What another transaction holding the table's lock sees only loses rows. -/
theorem Outcome.visible_of_table (o : Outcome lockKey s t ans) (h : t.Apart u)
    (htable : .table ∈ u.locks) (k : S × P)
    (hk : ((u.visible (s.commit t ans).rows).get k).isSome) : ((u.visible s.rows).get k).isSome := by
  rw [get_visible] at hk ⊢
  rcases hu : u.pending.get k with _ | o'
  · rw [hu, Option.getD_none] at hk
    rw [Option.getD_none]
    change ((t.visible s.rows).get k).isSome at hk
    rw [get_visible] at hk
    rcases hp : t.pending.get k with _ | _ | r'
    · rwa [hp] at hk
    · rw [hp] at hk; exact absurd hk (by simp)
    · obtain ⟨_, _, ⟨_, ht, _⟩ | ⟨r, _, hr, _⟩⟩ := o.written k r' hp
      · exact absurd htable (h.locks _ ht)
      · rw [hr]; rfl
  · rw [hu] at hk
    exact hk

theorem Outcome.newcomer (o : Outcome lockKey s t ans) (h : t.Apart u) {q : Request S P} {now : ℤ}
    (hu : Newcomer lockKey s u q now) : Newcomer lockKey (s.commit t ans) u q now :=
  ⟨hu.lock, hu.table, hu.time, o.absent_of_lock h (k := q.key) hu.lock hu.absent⟩

/-- STEP: a transaction's assertion survives another's commit. -/
theorem Outcome.local_ (o : Outcome lockKey s t ans) (h : t.Apart u) (hu : Local lockKey s u) :
    Local lockKey (s.commit t ans) u := by
  obtain ⟨pc, pending, locks⟩ := u
  cases pc with
  | opened | locked | failed | succeeded | clearing | purge | purgeRun => exact hu
  | timed q now =>
    obtain ⟨hquiet, hnow, hrow⟩ := hu
    exact ⟨hquiet, hnow, fun r hr => hrow r (o.get_of_some h (k := q.key) hquiet.lock hr)⟩
  | deleting q now before changes path d =>
    cases path with
    | share =>
      have hw : ShareWrite lockKey s _ q now changes d := hu
      refine ⟨hw.quiet, hw.time, hw.refused, hw.written, fun k hk => ?_⟩
      obtain ⟨hscope, hstale⟩ := hw.removed k hk
      exact ⟨hscope, fun r hr => hstale r (o.get_of_some h (by rw [hscope]; exact hw.quiet.lock) hr)⟩
    | held => exact hu
    | table =>
      have hw : TableWrite lockKey s _ q now before changes d := hu
      refine ⟨o.newcomer h hw.newcomer, hw.deletes.commit h, hw.chosen, hw.written.imp_right ?_⟩
      rintro ⟨hd, hwritten, hnone, hroom⟩
      refine ⟨hd, hwritten, hnone, hroom.of_get fun k hk => ?_⟩
      obtain ⟨r, hr⟩ := Option.isSome_iff_exists.mp hk
      obtain ⟨hr, hkept⟩ := FMap.get_filter_eq_some.mp hr
      obtain ⟨r', hr'⟩ := Option.isSome_iff_exists.mp
        (o.visible_of_table h hw.newcomer.table k (by rw [hr]; rfl))
      rw [FMap.get_filter_eq_some.mpr ⟨hr', hkept⟩]
      rfl
  | writing q now before key entry rest path d sweep =>
    cases path with
    | share => exact hu
    | held =>
      have hw : HeldWrite lockKey s _ q now before key entry rest d := hu
      refine ⟨hw.quiet, hw.time, hw.key_eq, hw.rest_eq, hw.allowed, hw.held, ?_⟩
      obtain ⟨r, hr, hadm⟩ := hw.row
      have hlock : .address (lockKey key.1) ∈ locks := by rw [hw.key_eq]; exact hw.quiet.lock
      refine ⟨r, ?_, hadm⟩
      rcases o.get_of_lock h hlock with heq | hnone
      · rw [heq]; exact hr
      · exact Or.inr hnone
    | table =>
      have hw : TableInsert lockKey s _ q now before key entry rest d sweep := hu
      exact ⟨o.newcomer h hw.newcomer, fun k o' hk => (hw.gone k o' hk).commit h hk, hw.key_eq,
        hw.rest_eq, hw.entry_eq, hw.allowed, hw.absent,
        hw.room.of_get (o.visible_of_table h hw.newcomer.table)⟩
  | newPair q => exact ⟨hu.1, o.absent_of_lock h (k := q.key) hu.1.lock hu.2⟩
  | tableLocked q => exact ⟨hu.1, hu.2.1, o.absent_of_lock h (k := q.key) hu.1.lock hu.2.2⟩
  | purging q now => exact ⟨hu.1, o.newcomer h hu.2⟩
  | counting q now => exact ⟨hu.1.commit h, o.newcomer h hu.2⟩
  | loadingAll q now => exact ⟨hu.1.commit h, o.newcomer h hu.2⟩
  | loadingAddress q now total =>
    obtain ⟨hdel, hnew, htotal, hsize⟩ := hu
    exact ⟨hdel.commit h, o.newcomer h hnew, htotal,
      (FMap.size_le_of_get (o.visible_of_table h hnew.table)).trans hsize⟩
  | done ans' =>
    rcases ans' with ⟨q, now, d, sweep⟩ | ⟨scope, pair⟩ | _
    · rcases hu with ⟨hd, hnow, hgone⟩ | ⟨hd, hu⟩ | ⟨hd, hi⟩
      · exact Or.inl ⟨hd, hnow, fun k o' hk => (hgone k o' hk).commit h hk⟩
      · obtain ⟨r, r', hp, hr, hadm⟩ := hu.row
        have hpk : pending.get q.key = some (some r') := by
          rw [show pending = FMap.one q.key (some r') from hp, FMap.get_one, if_pos rfl]
        exact Or.inr (Or.inl ⟨hd, hu.lock, hu.time, r, r', hp, (get_of_pending h hpk).trans hr, hadm⟩)
      · have hshrink := o.visible_of_table h hi.newcomer.table
        exact Or.inr (Or.inr ⟨hd, o.newcomer h hi.newcomer, hi.row,
          fun k o' hne hk => (hi.gone k o' hne hk).commit h hk,
          (FMap.size_le_of_get hshrink).trans hi.size,
          (FMap.size_le_of_get fun p hp => hshrink (q.scope, p) hp).trans hi.share⟩)
    · intro k o' hk
      obtain ⟨hkey, ho, r, hr⟩ := hu k o' hk
      exact ⟨hkey, ho, r, (get_of_pending h hk).trans hr⟩
    · exact Deletes.commit h hu

end Interference

/-! ### One statement of its own -/

section Advance

variable {lockKey : S → K} {s : Shared (S × P) Row (Answer S P)}
  {t t' : Tx (S × P) Row (Lock K) (Pc S P)}

theorem filter_notMem_nil (m : FMap (S × P) Row) : (m.filter fun k _ => k ∉ ([] : List (S × P))) = m :=
  FMap.ext fun k => by rw [FMap.get_filter]; simp

omit [DecidableEq S] [DecidableEq P] in
theorem Deletes.get_eq_none {p : FMap (S × P) (Option Row)} (h : Deletes s p) {k : S × P}
    (hk : s.rows.get k = none) : p.get k = none := by
  rcases hp : p.get k with _ | o
  · rfl
  · obtain ⟨_, r, hr, _⟩ := h k o hp
    exact absurd (hk.symm.trans hr) (by simp)

/-- What a transaction sees under deletions of its own is among the committed rows. -/
theorem Deletes.visible (h : Deletes s t.pending) {k : S × P} {r : Row}
    (hk : (t.visible s.rows).get k = some r) : s.rows.get k = some r :=
  get_of_deletes (fun k o hp => (h k o hp).1) hk

theorem startWrite_of_nil {q : Request S P} {now : ℤ} {before after : Table S P} {path : Path}
    {d : Decision} (h : (Changes.between q.order before after).removed = []) :
    startWrite q now before after path d
      = writeRows q now before path d none (Changes.between q.order before after).written :=
  if_pos h

theorem startWrite_of_ne {q : Request S P} {now : ℤ} {before after : Table S P} {path : Path}
    {d : Decision} (h : (Changes.between q.order before after).removed ≠ []) :
    startWrite q now before after path d
      = .deleting q now before (Changes.between q.order before after) path d :=
  if_neg h

/-- STEP: what follows the load of the address. -/
theorem Local.timed {q : Request S P} {now : ℤ} {locks : List (Lock K)}
    {next : FMap (S × P) Row → Pc S P} (hcode : code lockKey (.timed q now) = .query next)
    (hlock : .address (lockKey q.scope) ∈ locks) (hnow : now ≤ s.clock)
    (hsound : ∀ r, s.rows.get q.key = some r → Sound now r) :
    Local lockKey s ⟨next s.rows, FMap.empty, locks⟩ := by
  obtain rfl := Stmt.query.inj hcode
  obtain ⟨_, hrows⟩ := loadAddress_spec q.order s.rows q.scope
  have hget : (loadAddress q.order s.rows q.scope).get q.scope q.pair
      = (s.rows.get q.key).map Row.entry := by
    rw [← Table.get_rows, hrows, FMap.get_filter, get_entries]
    simp only [decide_true, filter_const_true]
    rfl
  set loaded := loadAddress q.order s.rows q.scope with hloaded
  have hdone : ∀ d, d ≠ .Allow →
      Local lockKey s ⟨.done (.decided q now d none), FMap.empty, locks⟩ := fun d hd =>
    Or.inl ⟨hd, hnow, fun k o hk => absurd hk (by simp)⟩
  rcases hr : s.rows.get q.key with _ | r
  · rw [hr] at hget
    have hgone := Table.get_reclaimAddress_of_none now hget
    have hsplit : loaded.refuseAtShare q.scope q.pair now = (loaded.reclaimAddress q.scope now,
        if MAX_PAIRS_PER_IP ≤ (loaded.reclaimAddress q.scope now).heldBy q.scope then
          some (.Locked ((loaded.reclaimAddress q.scope now).addressFreesUpIn q.scope now))
        else none) := by
      rw [Table.refuseAtShare, if_neg (by rw [hget]; simp)]
    simp only [← hloaded, hsplit]
    split
    · -- refused at the share, and the address's stale rows go
      obtain ⟨hwritten, hremoved⟩ := between_reclaim q.order loaded q.scope now
      rename_i table refused heq
      obtain ⟨rfl, hrefused⟩ := Prod.mk.inj heq
      have hd : refused ≠ .Allow := by
        split at hrefused
        · obtain rfl := Option.some.inj hrefused
          simp
        · exact absurd hrefused (by simp)
      by_cases hnil : (Changes.between q.order loaded (loaded.reclaimAddress q.scope now)).removed = []
      · rw [startWrite_of_nil hnil, hwritten]
        exact hdone refused hd
      · rw [startWrite_of_ne hnil]
        refine ⟨⟨rfl, hlock⟩, hnow, hd, hwritten, fun k hk => ?_⟩
        obtain ⟨e, he, hscope, hstale⟩ := (hremoved k).mp hk
        refine ⟨hscope, fun r hr' => ?_⟩
        rw [hrows, FMap.get_filter_eq_some, get_entries_eq_some] at he
        obtain ⟨⟨r', hr'', rfl⟩, _⟩ := he
        obtain rfl := Option.some.inj (hr'.symm.trans hr'')
        exact hstale
    · rename_i table heq
      obtain ⟨rfl, _⟩ := Prod.mk.inj heq
      rw [hgone]
      exact ⟨⟨rfl, hlock⟩, hr⟩
  · rw [hr] at hget
    have hheld : loaded.get q.scope q.pair = some r.entry := hget
    have hsplit : loaded.refuseAtShare q.scope q.pair now = (loaded, none) := by
      rw [Table.refuseAtShare, if_pos (by rw [hheld]; rfl)]
    simp only [← hloaded, hsplit, hheld, Option.isSome_some, if_true,
      Table.admission_held q.order hheld now]
    obtain ⟨hremoved, hwritten⟩ := @between_held _ _ _ _ q.order loaded
      ⟨Table.put loaded.byIp q.scope q.pair (r.entry.admission now).1, loaded.total⟩
      q.key _ _ hheld (rows_put ..)
    rw [startWrite_of_nil hremoved, hwritten]
    rcases (hsound r hr).admission with ⟨hsame, hd⟩ | ⟨hne, hd, hadm⟩
    · rw [if_pos hsame]
      exact hdone _ hd
    · rw [if_neg hne]
      exact ⟨⟨rfl, hlock⟩, hnow, rfl, rfl, hd, by rw [show loaded.get q.key.1 q.key.2 = _ from hheld]; rfl,
        r, Or.inl hr, hadm⟩

/-- STEP: what follows the load under the table's lock. -/
theorem Local.decided {q : Request S P} {now : ℤ} {before : Table S P} (hdel : Deletes s t.pending)
    (hnew : Newcomer lockKey s t q now) (hnone : before.rows.get q.key = none)
    (hchosen : ∀ k e, before.rows.get k = some e →
      (before.admission q.order q.scope q.pair now).1.rows.get k = none →
      e.isStale now = true ∨ EvictedUnder before.rows now k e)
    (hshare : ∀ p, ((t.visible s.rows).get (q.scope, p)).isSome →
      (before.rows.get (q.scope, p)).isSome)
    (hsize : (before.admission q.order q.scope q.pair now).2 = .Allow →
      ((t.visible s.rows).filter fun k _ => k ∉ (Changes.between q.order before
        (before.admission q.order q.scope q.pair now).1).removed).size < MAX_TRACKED) :
    Local lockKey s { t with at_ := decideNewPair q now before } := by
  obtain ⟨pc, pending, locks⟩ := t
  have hnew' : ∀ pc', Newcomer lockKey s ⟨pc', pending, locks⟩ q now := fun _ =>
    ⟨hnew.lock, hnew.table, hnew.time, hnew.absent⟩
  have hchosen' : Chosen before now (Changes.between q.order before
      (before.admission q.order q.scope q.pair now).1).removed := fun k hk => by
    obtain ⟨⟨e, he⟩, hgone⟩ := Changes.mem_removed.mp hk
    exact ⟨e, he, hchosen k e he hgone⟩
  unfold decideNewPair
  rcases hadm : before.admission q.order q.scope q.pair now with ⟨after, d⟩
  have hpair := newPair_of_admission q.order now hnone
  change NewPair before q.key now (before.admission q.order q.scope q.pair now).1
    (before.admission q.order q.scope q.pair now).2 at hpair
  rw [hadm] at hpair hchosen' hsize
  simp only at hpair hchosen' hsize ⊢
  cases hpair with
  | refused retry =>
    obtain ⟨hwritten, _⟩ := between_reclaim q.order before q.key.1 now
    by_cases hnil : (Changes.between q.order before (before.reclaimAddress q.key.1 now)).removed = []
    · rw [startWrite_of_nil hnil, hwritten]
      exact Or.inl ⟨by simp, hnew.time, fun k o hk => hdel.gone none now hk⟩
    · rw [startWrite_of_ne hnil]
      exact ⟨hnew' _, hdel, hchosen', Or.inl ⟨by simp, hwritten⟩⟩
  | admitted _ room hroom hunder hafter =>
    obtain ⟨hwritten, hremoved⟩ := @between_new _ _ _ _ q.order _ after _ _ _ hnone hroom hafter
    have hroom' : Room ((Tx.visible ⟨pc, pending, locks⟩ s.rows).filter fun k _ =>
        k ∉ (Changes.between q.order before after).removed) q.scope := by
      refine ⟨hsize rfl, lt_of_le_of_lt (FMap.size_le_of_get fun p hp => ?_) hunder⟩
      obtain ⟨r, hr⟩ := Option.isSome_iff_exists.mp hp
      rw [FMap.get_under, FMap.get_filter_eq_some] at hr
      have hb := hshare p (by rw [hr.1]; rfl)
      have hkept := of_decide_eq_true hr.2
      rw [hremoved, not_and] at hkept
      exact Option.isSome_iff_ne_none.mpr (hkept (Option.isSome_iff_exists.mp hb))
    by_cases hnil : (Changes.between q.order before after).removed = []
    · rw [startWrite_of_nil hnil, hwritten]
      rw [hnil, filter_notMem_nil] at hroom'
      exact ⟨hnew' _, fun k o hk => hdel.gone none now hk, rfl, rfl, rfl, rfl, hnone, hroom'⟩
    · rw [startWrite_of_ne hnil]
      exact ⟨hnew' _, hdel, hchosen', Or.inr ⟨rfl, hwritten, hnone, hroom'⟩⟩

/-- An admission on a table with room only takes stale pairs away. -/
theorem stale_of_room (order : Listing (S × P)) {before : Table S P} {k : S × P} {now : ℤ}
    (hroom : before.total < MAX_TRACKED) (hnone : before.rows.get k = none) {j : S × P} {e : Entry}
    (hj : before.rows.get j = some e)
    (hgone : (before.admission order k.1 k.2 now).1.rows.get j = none) : e.isStale now = true := by
  have hreclaim : (before.reclaimAddress k.1 now).rows.get j = none → e.isStale now = true := by
    intro h
    rw [Table.rows_reclaimAddress, FMap.get_filter, hj, Option.filter_eq_none_iff] at h
    have hdead := h e rfl
    simp only [live, Bool.or_eq_true, not_or, Bool.not_eq_true, Bool.not_eq_false'] at hdead
    exact hdead.2
  by_cases hshare : MAX_PAIRS_PER_IP ≤ (before.reclaimAddress k.1 now).heldBy k.1
  · rw [Table.admission_refused order hnone hshare] at hgone
    exact hreclaim hgone
  · have hid : (before.reclaimAddress k.1 now).makeRoom order now = before.reclaimAddress k.1 now := by
      refine if_pos (lt_of_le_of_lt ?_ hroom)
      rw [Table.reclaimAddress]
      split
      · exact le_refl _
      · exact Nat.sub_le _ _
    have hjk : j ≠ k := fun h => by rw [h, hnone] at hj; exact absurd hj (by simp)
    rw [Table.admission_new order hnone (Nat.lt_of_not_le hshare), rows_put, hid,
      FMap.get_set_ne _ _ hjk] at hgone
    exact hreclaim hgone

/-- An admission on every row keeps its ceiling: what it leaves of them has room for the new pair. -/
theorem size_kept_lt (order : Listing (S × P)) {before : Table S P} {k : S × P} {now : ℤ}
    (hinv : before.Inv) (hnone : before.rows.get k = none) {seen : FMap (S × P) Row}
    (hseen : ∀ j, (seen.get j).isSome → (before.rows.get j).isSome)
    (hd : (before.admission order k.1 k.2 now).2 = .Allow) :
    (seen.filter fun j _ => j ∉ (Changes.between order before
      (before.admission order k.1 k.2 now).1).removed).size < MAX_TRACKED := by
  have hpair := newPair_of_admission order now hnone
  have hceiling := (Table.inv_admission hinv order k.1 k.2 now).ceiling
  rw [(Table.inv_admission hinv order k.1 k.2 now).counted.total_eq] at hceiling
  rcases hadm : before.admission order k.1 k.2 now with ⟨after, d⟩
  rw [hadm] at hpair hceiling hd
  cases hpair with
  | refused retry => exact absurd hd (by simp)
  | admitted _ room hroom _ hafter =>
    obtain ⟨_, hremoved⟩ := @between_new _ _ _ _ order _ after _ _ _ hnone hroom hafter
    have hfree : room.get k = none := by
      rcases hr : room.get k with _ | e
      · rfl
      · exact absurd (hnone.symm.trans (hroom k e hr)) (by simp)
    rw [hafter, FMap.size_set_new _ hfree] at hceiling
    refine lt_of_le_of_lt (FMap.size_le_of_get fun j hj => ?_) (Nat.lt_of_succ_le hceiling)
    obtain ⟨r, hr⟩ := Option.isSome_iff_exists.mp hj
    rw [FMap.get_filter_eq_some] at hr
    have hkept := of_decide_eq_true hr.2
    rw [hremoved, not_and] at hkept
    exact Option.isSome_iff_ne_none.mpr
      (hkept (Option.isSome_iff_exists.mp (hseen j (by rw [hr.1]; rfl))))

/-- STEP: a new pair decided on every row. -/
theorem Local.loadedAll (hk : Kept s) {q : Request S P} {now : ℤ} (hdel : Deletes s t.pending)
    (hnew : Newcomer lockKey s t q now) :
    Local lockKey s
      { t with at_ := decideNewPair q now (loadAll q.order (t.visible s.rows)) } := by
  obtain ⟨hcounted, hrows⟩ := loadAll_spec q.order (t.visible s.rows)
  have hget : ∀ k, ((t.visible s.rows).get k).isSome → (s.rows.get k).isSome := fun k h => by
    obtain ⟨r, hr⟩ := Option.isSome_iff_exists.mp h
    rw [hdel.visible hr]
    rfl
  have hinv : (loadAll q.order (t.visible s.rows)).Inv := by
    refine hcounted.inv (fun scope => ?_) ?_
    · refine (FMap.size_le_of_get fun p hp => ?_).trans (hk.share scope)
      rw [hrows, FMap.get_under, get_entries, Option.isSome_map] at hp
      exact hget (scope, p) hp
    · rw [hcounted.total_eq, hrows, size_entries]
      exact (FMap.size_le_of_get hget).trans hk.ceiling
  have hnone : (loadAll q.order (t.visible s.rows)).rows.get q.key = none := by
    rw [hrows, get_entries, get_visible, hdel.get_eq_none hnew.absent, Option.getD_none, hnew.absent]
    rfl
  refine Local.decided hdel hnew hnone (fun k e he hgone => ?_) (fun p hp => ?_) fun hd => ?_
  · rcases hs : e.isStale now with _ | _
    · obtain ⟨hfull, hvictim⟩ := Table.victim_of_admission hinv q.order he (by rw [live, hs]; rfl) hgone
      exact Or.inr ⟨hfull, hvictim⟩
    · exact Or.inl rfl
  · rw [hrows, get_entries, Option.isSome_map]
    exact hp
  · refine size_kept_lt q.order (k := q.key) hinv hnone (fun j hj => ?_) hd
    rw [hrows, get_entries, Option.isSome_map]
    exact hj

/-- STEP: a new pair decided on its address's rows, under the total counted. -/
theorem Local.loadedAddress {q : Request S P} {now : ℤ} {total : ℕ} (hdel : Deletes s t.pending)
    (hnew : Newcomer lockKey s t q now) (hroom : total < MAX_TRACKED)
    (hcount : (t.visible s.rows).size ≤ total) :
    Local lockKey s
      { t with at_ := decideNewPair q now
                { loadAddress q.order (t.visible s.rows) q.scope with total := total } } := by
  set before : Table S P :=
    { loadAddress q.order (t.visible s.rows) q.scope with total := total } with hbefore
  have hrows : before.rows = (entries (t.visible s.rows)).filter fun k _ => k.1 = q.scope :=
    (loadAddress_spec q.order (t.visible s.rows) q.scope).2
  have hnone : before.rows.get q.key = none := by
    rw [hrows, FMap.get_filter, get_entries, get_visible, hdel.get_eq_none hnew.absent,
      Option.getD_none, hnew.absent]
    rfl
  refine Local.decided hdel hnew hnone (fun k e he hgone => ?_) (fun p hp => ?_) fun _ => ?_
  · exact Or.inl (stale_of_room q.order (k := q.key) hroom hnone he hgone)
  · obtain ⟨r, hr⟩ := Option.isSome_iff_exists.mp hp
    have : before.rows.get (q.scope, p) = some r.entry := by
      rw [hrows, FMap.get_filter_eq_some]
      exact ⟨get_entries_eq_some.mpr ⟨r, hr, rfl⟩, decide_eq_true rfl⟩
    rw [this]
    rfl
  · exact (FMap.size_filter_le _ _).trans_lt (hcount.trans_lt hroom)

/-- STEP: what a `DELETE` by key leaves. -/
theorem Local.deleted {q : Request S P} {now : ℤ} {before : Table S P} {changes : Changes S P}
    {path : Path} {d : Decision} {pending : FMap (S × P) (Option Row)} {locks : List (Lock K)}
    (h : Local lockKey s ⟨.deleting q now before changes path d, pending, locks⟩) :
    Local lockKey s
      ⟨writeRows q now before path d
        (some ⟨before, changes.removed, s.rows.patch pending⟩) changes.written,
        pending.merge (FMap.deleteWhere (fun k _ => k ∈ changes.removed) (s.rows.patch pending)),
        locks⟩ := by
  have hmerged : ∀ k o, (pending.merge (FMap.deleteWhere (fun k _ => decide (k ∈ changes.removed))
      (s.rows.patch pending))).get k = some o →
      (o = none ∧ k ∈ changes.removed ∧ ∃ r, (s.rows.patch pending).get k = some r) ∨
        pending.get k = some o := by
    intro k o hk
    rw [FMap.get_merge] at hk
    rcases hd : (FMap.deleteWhere (fun k _ => decide (k ∈ changes.removed))
      (s.rows.patch pending)).get k with _ | o'
    · rw [hd] at hk; exact Or.inr hk
    · rw [hd] at hk
      obtain rfl := Option.some.inj hk
      obtain ⟨ho, r, hr, hp⟩ := FMap.get_deleteWhere.mp hd
      exact Or.inl ⟨ho, of_decide_eq_true hp, r, hr⟩
  cases path with
  | held => exact absurd h id
  | share =>
    have hw : ShareWrite lockKey s _ q now changes d := h
    rw [hw.written]
    refine Or.inl ⟨hw.refused, hw.time, fun k o hk => ?_⟩
    have hp : pending = FMap.empty := hw.quiet.pending
    rcases hmerged k o hk with ⟨ho, hk', r, hr⟩ | hold
    · rw [hp, FMap.patch_empty] at hr
      exact ⟨ho, r, hr, Or.inl (Entry.isStale_mono ((hw.removed k hk').2 r hr) hw.time)⟩
    · rw [hp] at hold
      exact absurd hold (by simp)
  | table =>
    have hw : TableWrite lockKey s _ q now before changes d := h
    have hdel : Deletes s pending := hw.deletes
    have hgone : ∀ k o, (pending.merge (FMap.deleteWhere (fun k _ => decide (k ∈ changes.removed))
        (s.rows.patch pending))).get k = some o →
        Gone s (some ⟨before, changes.removed, s.rows.patch pending⟩) now k o := by
      intro k o hk
      rcases hmerged k o hk with ⟨ho, hk', r, hr⟩ | hold
      · have hrow : s.rows.get k = some r := get_of_deletes
          (t := ⟨.deleting q now before changes .table d, pending, locks⟩)
          (fun k o hp => (hdel k o hp).1) hr
        exact ⟨ho, r, hrow, Or.inr ⟨_, rfl, hw.chosen, hk', hr⟩⟩
      · exact hdel.gone _ now hold
    have hnew := hw.newcomer
    rcases hw.written with ⟨hd, hnil⟩ | ⟨hd, hone, hnone, hroom⟩
    · rw [hnil]
      exact Or.inl ⟨hd, hnew.time, hgone⟩
    · rw [hone]
      refine ⟨⟨hnew.lock, hnew.table, hnew.time, hnew.absent⟩, hgone, rfl, rfl, rfl, hd, hnone, ?_⟩
      rw [Tx.visible, FMap.patch_merge, FMap.patch_deleteWhere]
      simpa only [decide_not, Tx.visible] using hroom

/-- STEP: a statement takes a transaction's assertion to the next one. -/
theorem Local.advance (hk : Kept s) (h : Local lockKey s t)
    (hstep : Tx.Advance (code lockKey) s t t') : Local lockKey s t' := by
  obtain ⟨pc, pending, locks⟩ := t
  cases pc with
  | opened q =>
    obtain rfl := hstep.of_lock rfl
    exact ⟨h, List.mem_cons_self⟩
  | locked q =>
    obtain rfl := hstep.of_clock rfl
    exact ⟨⟨h.pending, h.lock⟩, le_refl _, fun r hr => hk.sound _ r hr⟩
  | timed q now =>
    obtain ⟨⟨hp, hlock⟩, hnow, hsound⟩ := h
    obtain rfl := hstep.of_query rfl
    obtain rfl : pending = FMap.empty := hp
    rw [Tx.visible_of_empty rfl]
    exact Local.timed rfl hlock hnow hsound
  | deleting q now before changes path d =>
    obtain rfl := hstep.of_write rfl
    exact Local.deleted h
  | writing q now before key entry rest path d sweep =>
    cases path with
    | share => exact absurd h id
    | held =>
      have hw : HeldWrite lockKey s _ q now before key entry rest d := h
      obtain ⟨⟨hp, hlock⟩, hnow, rfl, rfl, rfl, hheld, r, hrow, hadm⟩ := hw
      obtain rfl : pending = FMap.empty := hp
      obtain rfl := hstep.of_write (by rw [code, if_pos hheld])
      rw [Tx.visible_of_empty rfl, FMap.empty_merge]
      rcases hrow with hr | hr
      · simp only [FMap.updateAt, hr, Option.isSome_some, if_true]
        exact Or.inr (Or.inl ⟨rfl, hlock, hnow, r, entry.row, rfl, hr, hadm⟩)
      · simp only [FMap.updateAt, hr, Option.isSome_none, Bool.false_eq_true, if_false, if_true]
        exact ⟨⟨rfl, hlock⟩, hr⟩
    | table =>
      have hw : TableInsert lockKey s _ q now before key entry rest d sweep := h
      obtain ⟨hnew, hgone, rfl, rfl, rfl, rfl, hnone, hroom⟩ := hw
      obtain rfl := hstep.of_write (by
        rw [code, if_neg (by rw [show before.get q.key.1 q.key.2 = none from hnone]; simp)])
      have hfree : pending.get q.key = none := by
        rcases hp : pending.get q.key with _ | o
        · rfl
        · obtain ⟨_, r, hr, _⟩ := hgone _ o hp
          exact absurd (hnew.absent.symm.trans hr) (by simp)
      have hunseen : (Tx.visible ⟨Pc.writing q now before q.key (Entry.first now) [] .table .Allow sweep,
          pending, locks⟩ s.rows).get q.key = none := by
        rw [get_visible, hfree, Option.getD_none, hnew.absent]
      have hget : ∀ k, (pending.merge (FMap.one q.key (some (Entry.first now).row))).get k
          = if k = q.key then some (some (Entry.first now).row) else pending.get k := fun k => by
        rw [FMap.get_merge, FMap.get_one]
        split <;> rfl
      simp only [FMap.insertAt, hunseen, Option.isSome_none, Bool.false_eq_true, if_false]
      refine Or.inr (Or.inr ⟨rfl, ⟨hnew.lock, hnew.table, hnew.time, hnew.absent⟩, ?_,
        fun k o hne hp => ?_, ?_, ?_⟩)
      · rw [hget, if_pos rfl]
      · rw [hget, if_neg hne] at hp
        exact hgone k o hp
      · rw [Tx.visible, FMap.patch_merge, FMap.patch_one]
        exact (FMap.size_set_le _ _ _).trans hroom.size
      · rw [Tx.visible, FMap.patch_merge, FMap.patch_one]
        rw [show q.key = (q.scope, q.pair) from rfl, FMap.under_set_self]
        exact (FMap.size_set_le _ _ _).trans hroom.share
  | newPair q =>
    obtain rfl := hstep.of_lock rfl
    exact ⟨⟨h.1.pending, List.mem_cons_of_mem _ h.1.lock⟩, List.mem_cons_self, h.2⟩
  | tableLocked q =>
    obtain ⟨⟨hp, hlock⟩, htable, hnone⟩ := h
    obtain rfl := hstep.of_clock rfl
    exact ⟨hp, hlock, htable, le_refl _, hnone⟩
  | purging q now =>
    obtain ⟨hp, hnew⟩ := h
    obtain rfl := hstep.of_write rfl
    obtain rfl : pending = FMap.empty := hp
    rw [Tx.visible_of_empty rfl, FMap.empty_merge]
    exact ⟨deletes_expired hk hnew.time, hnew.lock, hnew.table, hnew.time, hnew.absent⟩
  | counting q now =>
    obtain ⟨hdel, hnew⟩ := h
    obtain rfl := hstep.of_query rfl
    have hnew' : ∀ pc', Newcomer lockKey s ⟨pc', pending, locks⟩ q now := fun _ =>
      ⟨hnew.lock, hnew.table, hnew.time, hnew.absent⟩
    by_cases hfull : MAX_TRACKED ≤ (Tx.visible ⟨Pc.counting q now, pending, locks⟩ s.rows).size
    · simp only [if_pos hfull]
      exact ⟨hdel, hnew' _⟩
    · simp only [if_neg hfull]
      exact ⟨hdel, hnew' _, not_le.mp hfull, le_refl _⟩
  | loadingAll q now =>
    obtain rfl := hstep.of_query rfl
    exact Local.loadedAll hk h.1 h.2
  | loadingAddress q now total =>
    obtain ⟨hdel, hnew, htotal, hsize⟩ := h
    obtain rfl := hstep.of_query rfl
    exact Local.loadedAddress hdel hnew htotal hsize
  | done ans => exact (hstep.not_commit rfl).elim
  | failed => exact (hstep.not_rollback rfl).elim
  | succeeded scope pair =>
    obtain rfl := hstep.of_lock rfl
    exact ⟨h, List.mem_cons_self⟩
  | clearing scope pair =>
    obtain ⟨hp, hlock⟩ := h
    obtain rfl := hstep.of_write rfl
    obtain rfl : pending = FMap.empty := hp
    rw [Tx.visible_of_empty rfl, FMap.empty_merge]
    intro k o hk'
    obtain ⟨ho, r, hr, hkey⟩ := FMap.get_deleteWhere.mp hk'
    exact ⟨of_decide_eq_true hkey, ho, r, hr⟩
  | purge =>
    obtain rfl := hstep.of_clock rfl
    exact ⟨h, le_refl _⟩
  | purgeRun now =>
    obtain ⟨hp, hnow⟩ := h
    obtain rfl := hstep.of_write rfl
    obtain rfl : pending = FMap.empty := hp
    rw [Tx.visible_of_empty rfl, FMap.empty_merge]
    exact deletes_expired hk hnow

end Advance

/-! ### A commit of its own -/

section Commit

variable {lockKey : S → K} {s : Shared (S × P) Row (Answer S P)}
  {t : Tx (S × P) Row (Lock K) (Pc S P)} {ans : Answer S P}

theorem Gone.deleted {q : Request S P} {now : ℤ} {d : Decision} {sweep : Option (Sweep S P)}
    {k : S × P} {o : Option Row} (h : Gone s sweep now k o) (hnow : now ≤ s.clock) :
    o = none ∧ ∃ r, s.rows.get k = some r ∧ Deleted s (.decided q now d sweep) k r := by
  obtain ⟨ho, r, hr, hstale | ⟨sw, rfl, hchosen, hk, hseen⟩⟩ := h
  · exact ⟨ho, r, hr, .stale hstale⟩
  · exact ⟨ho, r, hr, .swept q now d sw rfl hnow hchosen hk hseen⟩

theorem allows_eq_false {q : Request S P} {now : ℤ} {d : Decision} {sweep : Option (Sweep S P)}
    (hd : d ≠ .Allow) (k : S × P) : (Answer.decided q now d sweep).allows k = false := by
  cases d with
  | Allow => exact absurd rfl hd
  | Locked retry => rfl

theorem allows_iff {q : Request S P} {now : ℤ} {sweep : Option (Sweep S P)} {k : S × P} :
    (Answer.decided q now .Allow sweep).allows k = true ↔ q.key = k := decide_eq_true_iff

/-- Rows that are all among the committed ones keep the caps. -/
theorem Kept.caps (hk : Kept s) {m : FMap (S × P) Row}
    (hget : ∀ k, (m.get k).isSome → (s.rows.get k).isSome) :
    m.size ≤ MAX_TRACKED ∧ ∀ scope, (m.under scope).size ≤ MAX_PAIRS_PER_IP :=
  ⟨(FMap.size_le_of_get hget).trans hk.ceiling, fun scope =>
    (FMap.size_le_of_get fun p hp => hget (scope, p) hp).trans (hk.share scope)⟩

/-- A transaction that only deleted, and whose answer admits nothing. -/
theorem outcome_of_deleted (hk : Kept s) (hsilent : ∀ k, ans.allows k = false)
    (hdel : ∀ k o, t.pending.get k = some o →
      o = none ∧ ∃ r, s.rows.get k = some r ∧ Deleted s ans k r) :
    Outcome lockKey s t ans := by
  obtain ⟨hceiling, hshare⟩ := hk.caps (m := t.visible s.rows) fun k hsome => by
    obtain ⟨r, hr⟩ := Option.isSome_iff_exists.mp hsome
    rw [get_of_deletes (fun k o hp => (hdel k o hp).1) hr]
    rfl
  exact ⟨hceiling, hshare, fun k hp => (hdel k none hp).2,
    fun k r' hp => absurd (hdel k _ hp).1 (by simp),
    fun k ha => absurd ((hsilent k).symm.trans ha) (by simp)⟩

theorem Updated.outcome (hk : Kept s) {q : Request S P} {now : ℤ} {sweep : Option (Sweep S P)}
    (h : Updated lockKey s t q now) : Outcome lockKey s t (.decided q now .Allow sweep) := by
  obtain ⟨hlock, hnow, r, r', hp, hr, hadm⟩ := h
  have hget : ∀ k o, t.pending.get k = some o → k = q.key ∧ o = some r' := fun k o hk' => by
    rw [hp, FMap.get_one] at hk'
    split at hk'
    · rename_i hkey; exact ⟨hkey, (Option.some.inj hk').symm⟩
    · exact absurd hk' (by simp)
  obtain ⟨hceiling, hshare⟩ := hk.caps (m := t.visible s.rows) fun k hsome => by
    rw [get_visible] at hsome
    rcases hpk : t.pending.get k with _ | o
    · rwa [hpk] at hsome
    · obtain ⟨rfl, _⟩ := hget k o hpk
      rw [hr]
      rfl
  refine ⟨hceiling, hshare, fun k hpk => absurd (hget k none hpk).2 (by simp), fun k x hpk => ?_,
    fun k ha => ?_⟩
  · obtain ⟨rfl, hx⟩ := hget k _ hpk
    obtain rfl := Option.some.inj hx
    exact ⟨hlock, allows_iff.mpr rfl, Or.inr ⟨r, now, hr, hnow, hadm⟩⟩
  · obtain rfl := allows_iff.mp ha
    exact ⟨r', by rw [hp, FMap.get_one, if_pos rfl]⟩

theorem Inserted.outcome (hk : Kept s) {q : Request S P} {now : ℤ} {sweep : Option (Sweep S P)}
    (h : Inserted lockKey s t q now sweep) :
    Outcome lockKey s t (.decided q now .Allow sweep) := by
  refine ⟨h.size, fun scope => ?_, fun k hp => ?_, fun k r' hp => ?_, fun k ha => ?_⟩
  · by_cases hscope : scope = q.scope
    · rw [hscope]
      exact h.share
    · refine (FMap.size_le_of_get fun p hsome => ?_).trans (hk.share scope)
      rw [FMap.get_under, get_visible] at hsome
      rw [FMap.get_under]
      have hne : (scope, p) ≠ q.key := fun heq => hscope (congrArg Prod.fst heq)
      rcases hp : t.pending.get (scope, p) with _ | o
      · rwa [hp] at hsome
      · obtain ⟨_, r, hr, _⟩ := h.gone _ o hne hp
        rw [hr]
        rfl
  · have hne : k ≠ q.key := fun heq => by
      rw [heq, h.row] at hp
      exact absurd hp (by simp)
    exact ((h.gone k none hne hp).deleted h.newcomer.time).2
  · rcases eq_or_ne k q.key with rfl | hne
    · obtain rfl := Option.some.inj (Option.some.inj (hp.symm.trans h.row))
      exact ⟨h.newcomer.lock, allows_iff.mpr rfl, Or.inl ⟨h.newcomer.absent, h.newcomer.table,
        (sound_first now).mono h.newcomer.time, (attempts_first now).ge⟩⟩
    · exact absurd (h.gone k _ hne hp).1 (by simp)
  · obtain rfl := allows_iff.mp ha
    exact ⟨_, h.row⟩

/-- STEP: what a transaction has done when it commits. -/
theorem Local.outcome (hk : Kept s) (h : Local lockKey s t)
    (hcode : code lockKey t.at_ = .commit ans) : Outcome lockKey s t ans := by
  obtain ⟨pc, pending, locks⟩ := t
  cases pc with
  | opened | locked | timed | deleting | newPair | tableLocked | purging | counting | loadingAll
  | loadingAddress | failed | succeeded | clearing | purge | purgeRun =>
    exact absurd hcode (by simp [code])
  | writing q now before key entry rest path d sweep =>
    rw [code] at hcode
    split at hcode <;> exact absurd hcode (by simp)
  | done ans' =>
    obtain rfl := Stmt.commit.inj hcode
    rcases ans' with ⟨q, now, d, sweep⟩ | ⟨scope, pair⟩ | _
    · rcases h with ⟨hd, hnow, hgone⟩ | ⟨rfl, hu⟩ | ⟨rfl, hi⟩
      · exact outcome_of_deleted hk (allows_eq_false hd) fun k o hp => (hgone k o hp).deleted hnow
      · exact hu.outcome hk
      · exact hi.outcome hk
    · refine outcome_of_deleted hk (fun _ => rfl) fun k o hp => ?_
      obtain ⟨rfl, ho, r, hr⟩ := h k o hp
      exact ⟨ho, r, hr, .cleared rfl⟩
    · refine outcome_of_deleted hk (fun _ => rfl) fun k o hp => ?_
      obtain ⟨ho, r, hr, hstale⟩ := h k o hp
      exact ⟨ho, r, hr, .stale hstale⟩

end Commit

/-! ### Every interleaving -/

theorem outline (ok : Shared (S × P) Row (Answer S P) → Tx (S × P) Row (Lock K) (Pc S P) → Prop)
    (lockKey : S → K) : Outline ok (code lockKey) Starts Kept (Local (P := P) lockKey) where
  init := kept_init
  tick _ _ hc h := h.tick hc
  tick_tx _ _ _ hc _ h := h.tick hc
  begin s l _ hstart := by
    cases hstart with
    | admission q => rfl
    | success scope pair => rfl
    | purge => rfl
  advance _ _ _ _ hk h hstep := h.advance hk hstep
  commit _ _ _ hk h hcode := (h.outcome hk hcode).kept hk
  commit_tx _ _ _ _ hk h hcode hu hapart := (h.outcome hk hcode).local_ hapart hu

end Home.Throttle
