import ManageOurHome.Auth.ThrottleRace

/-! @src apps/api/src/auth/throttle.rs | layer:proof | family:rate-limit

    When an attempt admitted stays counted. An admission under the table's lock loads every row,
    chooses which to delete, and deletes them by key; a held pair is updated under its address's lock
    alone, so its row can change in between. `Unchanged` says it did not.

        new pair, full table:   load all ─▶ choose ──────────────▶ DELETE by key ─▶ commit
        held pair, beside it:                      update, commit
                                                   └─ a row chosen as stale, live by now -/

namespace Home.Throttle

open FiniteMap ReadCommitted Relation

variable {S P K τ : Type*} [DecidableEq S] [DecidableEq P]

/-- What an entry's staleness and rank are read from. -/
def Entry.dates (e : Entry) : ℤ × Option ℤ := (e.windowStart, e.lockedUntil)

/-- The rows a `DELETE` by key names are as they were loaded, or stale by the time it runs; and where
    it takes a live one, every row keeps the dates it was loaded with. -/
structure Unchanged (before : Table S P) (removed : List (S × P)) (seen : FMap (S × P) Row)
    (clock : ℤ) : Prop where
  named : ∀ k ∈ removed, ∀ r, seen.get k = some r →
    before.rows.get k = some r.entry ∨ r.entry.isStale clock = true
  dates : (∃ k ∈ removed, ∃ r, seen.get k = some r ∧ live clock r.entry = true) →
    ∀ k, (seen.get k).map (·.entry.dates) = (before.rows.get k).map Entry.dates

/-- The statements that run on rows unchanged since they were loaded: all but a `DELETE` by key, and
    those of them. -/
def Steady (s : Shared (S × P) Row (Answer S P)) (t : Tx (S × P) Row (Lock K) (Pc S P)) : Prop :=
  match t.at_ with
  | .deleting _ _ before changes _ _ =>
      Unchanged before changes.removed (t.visible s.rows) s.clock
  | _ => True

/-! ### The rule, on the rows a deletion ran on -/

section Rule

variable {now : ℤ} {e f : Entry}

theorem isStale_of_dates (h : e.dates = f.dates) (now : ℤ) : e.isStale now = f.isStale now :=
  Entry.isStale_congr (congrArg Prod.fst h) (congrArg Prod.snd h) now

theorem evictionKey_of_dates (h : e.dates = f.dates) (now : ℤ) :
    e.evictionKey now = f.evictionKey now := by
  obtain ⟨hw, hl⟩ := Prod.mk.inj h
  rw [Entry.evictionKey, Entry.evictionKey, Entry.lockedAt, Entry.lockedAt, hw, hl]

theorem evictedBefore_of_dates {e' f' : Entry} (he : e.dates = e'.dates) (hf : f.dates = f'.dates)
    (now : ℤ) : e.evictedBefore now f = e'.evictedBefore now f' := by
  simp only [Entry.evictedBefore, evictionKey_of_dates he, evictionKey_of_dates hf]

/-- The rule only looks at the dates. -/
theorem EvictedUnder.of_dates {m m' : FMap (S × P) Entry} {k : S × P} (h : EvictedUnder m now k e)
    (hdates : ∀ j, (m'.get j).map Entry.dates = (m.get j).map Entry.dates) (hk : m'.get k = some e) :
    EvictedUnder m' now k e := by
  have hlive : ∀ j f', m'.get j = some f' → ∃ f, m.get j = some f ∧ f.dates = f'.dates ∧
      live now f = live now f' := by
    intro j f' hj
    have hd := hdates j
    rw [hj, Option.map_some] at hd
    obtain ⟨f, hf, hdf⟩ := Option.map_eq_some_iff.mp hd.symm
    exact ⟨f, hf, hdf, by rw [live, live, isStale_of_dates hdf]⟩
  have hsome : ∀ j, ((m'.filter fun _ e => live now e).get j).isSome
      = ((m.filter fun _ e => live now e).get j).isSome := by
    intro j
    rw [FMap.get_filter, FMap.get_filter]
    rcases hj : m'.get j with _ | f'
    · have hd := hdates j
      rw [hj] at hd
      rw [Option.map_eq_none_iff.mp hd.symm]
    · obtain ⟨f, hf, _, hl⟩ := hlive j f' hj
      rw [hf]
      simp only [Option.filter, hl]
      split <;> rfl
  have hunder : ∀ ip, ((m'.filter fun _ e => live now e).under ip).size
      = ((m.filter fun _ e => live now e).under ip).size := fun ip =>
    FMap.size_eq_of_get fun p => by
      rw [FMap.get_under, FMap.get_under]
      exact Bool.eq_iff_iff.mp (hsome (ip, p))
  obtain ⟨hfull, hheld, hmost, hfirst⟩ := h
  refine ⟨(FMap.size_eq_of_get fun j => Bool.eq_iff_iff.mp (hsome j)).trans hfull, ?_, fun ip => ?_, fun j f' hj hsize => ?_⟩
  · exact FMap.get_filter_eq_some.mpr ⟨hk, (FMap.get_filter_eq_some.mp hheld).2⟩
  · rw [hunder, hunder]
    exact hmost ip
  · obtain ⟨hj, hl⟩ := FMap.get_filter_eq_some.mp hj
    obtain ⟨f, hf, hdf, hlf⟩ := hlive j f' hj
    rw [hunder, hunder] at hsize
    rw [← evictedBefore_of_dates hdf rfl]
    exact hfirst j f (FMap.get_filter_eq_some.mpr ⟨hf, hlf.trans hl⟩) hsize

/-- A row named by a deletion that ran on unchanged rows is stale, or evicted under the rule as it
    stood on them. -/
theorem Unchanged.deleted {before : Table S P} {removed : List (S × P)} {seen : FMap (S × P) Row}
    {clock : ℤ} (h : Unchanged before removed seen clock) (hnow : now ≤ clock)
    (hchosen : Chosen before now removed) {k : S × P} {r : Row} (hk : k ∈ removed)
    (hr : seen.get k = some r) :
    r.entry.isStale clock = true ∨ EvictedUnder (entries seen) now k r.entry := by
  rcases hstale : r.entry.isStale clock with _ | _
  · obtain ⟨e, he, hwhy⟩ := hchosen k hk
    have hsame : e = r.entry := by
      rcases h.named k hk r hr with heq | hs
      · exact Option.some.inj (he.symm.trans heq)
      · exact absurd (hstale.symm.trans hs) (by simp)
    subst hsame
    rcases hwhy with hs | hrule
    · exact absurd (hstale.symm.trans (Entry.isStale_mono hs hnow)) (by simp)
    · refine Or.inr (hrule.of_dates (fun j => ?_) (get_entries_eq_some.mpr ⟨r, hr, rfl⟩))
      rw [get_entries, Option.map_map]
      exact h.dates ⟨k, hk, r, hr, by rw [live, hstale]; rfl⟩ j
  · exact Or.inl rfl

theorem Unchanged.mono {before : Table S P} {removed : List (S × P)} {seen : FMap (S × P) Row}
    {clock clock' : ℤ} (h : Unchanged before removed seen clock) (hle : clock ≤ clock') :
    Unchanged before removed seen clock' where
  named k hk r hr := (h.named k hk r hr).imp_right fun hs => Entry.isStale_mono hs hle
  dates := by
    rintro ⟨k, hk, r, hr, hlive⟩
    refine h.dates ⟨k, hk, r, hr, ?_⟩
    rcases hs : r.entry.isStale clock with _ | _
    · rw [live, hs]; rfl
    · rw [live, Entry.isStale_mono hs hle] at hlive
      exact absurd hlive (by simp)

end Rule

/-! ### What a transaction knows of its deletion -/

/-- The deletion a transaction made, if any, ran on unchanged rows. -/
def Swept (s : Shared (S × P) Row (Answer S P)) (t : Tx (S × P) Row (Lock K) (Pc S P)) : Prop :=
  match t.at_ with
  | .writing _ _ _ _ _ _ _ _ (some sw) => Unchanged sw.before sw.removed sw.seen s.clock
  | .done (.decided _ _ _ (some sw)) => Unchanged sw.before sw.removed sw.seen s.clock
  | _ => True

section Swept

variable {s : Shared (S × P) Row (Answer S P)} {q : Request S P} {now : ℤ} {before : Table S P}
  {path : Path} {d : Decision} {pending : FMap (S × P) (Option Row)} {locks : List (Lock K)}

theorem swept_writeRows {sweep : Option (Sweep S P)}
    (h : ∀ sw, sweep = some sw → Unchanged sw.before sw.removed sw.seen s.clock)
    (written : List ((S × P) × Entry)) :
    Swept s ⟨writeRows q now before path d sweep written, pending, locks⟩ := by
  rcases written with _ | ⟨⟨key, entry⟩, rest⟩ <;> rcases sweep with _ | sw
  · exact trivial
  · exact h sw rfl
  · exact trivial
  · exact h sw rfl

theorem swept_startWrite {after : Table S P} :
    Swept s ⟨startWrite q now before after path d, pending, locks⟩ := by
  by_cases hnil : (Changes.between q.order before after).removed = []
  · rw [startWrite_of_nil hnil]
    exact swept_writeRows (fun sw hsw => absurd hsw (by simp)) _
  · rw [startWrite_of_ne hnil]
    exact trivial

theorem swept_decideNewPair : Swept s ⟨decideNewPair q now before, pending, locks⟩ :=
  swept_startWrite

theorem Swept.tick {t : Tx (S × P) Row (Lock K) (Pc S P)} {c : ℤ} (h : Swept s t)
    (hc : s.clock ≤ c) : Swept { s with clock := c } t := by
  obtain ⟨pc, pending, locks⟩ := t
  cases pc with
  | writing q now before key entry rest path d sweep =>
    rcases sweep with _ | sw
    · exact trivial
    · exact Unchanged.mono h hc
  | done ans =>
    rcases ans with ⟨q, now, d, _ | sw⟩ | ⟨scope, pair⟩ | _
    · exact trivial
    · exact Unchanged.mono h hc
    · exact trivial
    · exact trivial
  | opened | locked | timed | deleting | newPair | tableLocked | purging | counting | loadingAll
  | loadingAddress | failed | succeeded | clearing | purge | purgeRun => exact trivial

theorem Swept.advance {lockKey : S → K} {t t' : Tx (S × P) Row (Lock K) (Pc S P)}
    (hok : Steady s t) (h : Swept s t) (hstep : Tx.Advance (code lockKey) s t t') : Swept s t' := by
  obtain ⟨pc, pending, locks⟩ := t
  cases pc with
  | opened | newPair | succeeded => obtain rfl := hstep.of_lock rfl; exact trivial
  | locked | tableLocked | purge => obtain rfl := hstep.of_clock rfl; exact trivial
  | timed q now =>
    obtain rfl := hstep.of_query rfl
    simp only
    split
    · exact swept_startWrite
    · split
      · exact swept_startWrite
      · exact trivial
  | deleting q now before changes path d =>
    obtain rfl := hstep.of_write rfl
    exact swept_writeRows (fun sw hsw => by obtain rfl := Option.some.inj hsw; exact hok) _
  | writing q now before key entry rest path d sweep =>
    have hsw : ∀ sw, sweep = some sw → Unchanged sw.before sw.removed sw.seen s.clock := by
      rintro sw rfl
      exact h
    by_cases hheld : (before.get key.1 key.2).isSome
    · obtain rfl := hstep.of_write (by rw [code, if_pos hheld])
      simp only
      split
      · exact swept_writeRows hsw rest
      · split
        · exact trivial
        · rcases sweep with _ | sw
          · exact trivial
          · exact hsw sw rfl
    · obtain rfl := hstep.of_write (by rw [code, if_neg hheld])
      simp only
      split
      · exact trivial
      · exact swept_writeRows hsw rest
  | purging | clearing | purgeRun => obtain rfl := hstep.of_write rfl; exact trivial
  | counting q now =>
    obtain rfl := hstep.of_query rfl
    simp only
    split <;> exact trivial
  | loadingAll | loadingAddress => obtain rfl := hstep.of_query rfl; exact swept_decideNewPair
  | done ans => exact (hstep.not_commit rfl).elim
  | failed => exact (hstep.not_rollback rfl).elim

end Swept

theorem outline_swept (lockKey : S → K) :
    Outline Steady (code lockKey) Starts (fun _ => True) (Swept (P := P)) where
  init _ := trivial
  tick _ _ _ _ := trivial
  tick_tx _ _ _ hc _ h := h.tick hc
  begin s l _ hstart := by cases hstart <;> exact trivial
  advance _ _ _ hok _ h hstep := h.advance hok hstep
  commit _ _ _ _ _ _ := trivial
  commit_tx s t a u _ _ _ hu _ := by
    obtain ⟨pc, pending, locks⟩ := u
    exact hu

/-! ### Attempts kept -/

/-- What becomes of the row `r` of `k` in one step: it keeps its window and every attempt counted in
    it, or it was stale, or its pair succeeded, or `make_room`'s rule evicted it, on the rows the
    deletion ran on. -/
inductive After (s s' : Shared (S × P) Row (Answer S P)) (k : S × P) (r : Row) : Prop where
  | kept (r' : Row) (h : s'.rows.get k = some r') (hstart : r'.windowStart = r.windowStart)
      (hcount : r.attempts.val ≤ r'.attempts.val)
  | stale (h : r.entry.isStale s.clock = true)
  | succeeded (h : s'.log.head?.map Commit.answer = some (.cleared k.1 k.2))
  | evicted (q : Request S P) (now : ℤ) (d : Decision) (sw : Sweep S P)
      (h : s'.log.head?.map Commit.answer = some (.decided q now d (some sw)))
      (hrow : sw.seen.get k = some r) (hrule : EvictedUnder (entries sw.seen) now k r.entry)

/-- STEP: a commit whose deletion ran on unchanged rows loses no attempt. -/
theorem Outcome.after {lockKey : S → K} {s : Shared (S × P) Row (Answer S P)}
    {t : Tx (S × P) Row (Lock K) (Pc S P)} {ans : Answer S P} (o : Outcome lockKey s t ans)
    (hswept : ∀ q now d sw, ans = .decided q now d (some sw) →
      Unchanged sw.before sw.removed sw.seen s.clock)
    {k : S × P} {r : Row} (hr : s.rows.get k = some r) : After s (s.commit t ans) k r := by
  have hget : (s.commit t ans).rows.get k = (t.pending.get k).getD (s.rows.get k) := rfl
  rcases hp : t.pending.get k with _ | _ | r'
  · rw [hp, Option.getD_none, hr] at hget
    exact .kept r hget rfl (le_refl _)
  · obtain ⟨r', hr', hwhy⟩ := o.deleted k hp
    obtain rfl := Option.some.inj (hr.symm.trans hr')
    cases hwhy with
    | stale h => exact .stale h
    | cleared h => exact .succeeded (congrArg some h)
    | swept q now d sw hans hnow hchosen hk hseen =>
      rcases (hswept q now d sw hans).deleted hnow hchosen hk hseen with hstale | hrule
      · exact .stale hstale
      · exact .evicted q now d sw (congrArg some hans) hseen hrule
  · rw [hp, Option.getD_some] at hget
    obtain ⟨_, _, ⟨hnone, _⟩ | ⟨r'', now, hr'', hnow, hadm⟩⟩ := o.written k r' hp
    · exact absurd (hr.symm.trans hnone) (by simp)
    · obtain rfl := Option.some.inj (hr.symm.trans hr'')
      rcases hadm.change with ⟨hstart, hcount⟩ | ⟨hstale, _⟩
      · exact .kept r' hget hstart (by omega)
      · exact .stale (Entry.isStale_mono hstale hnow)

/-- The caps hold in every interleaving, and no row counts less than the attempts admitted in its
    window. -/
theorem bounds_hold [DecidableEq τ] {lockKey : S → K}
    {ok : Shared (S × P) Row (Answer S P) → Tx (S × P) Row (Lock K) (Pc S P) → Prop}
    {w : World (S × P) Row (Lock K) (Answer S P) (Pc S P) τ}
    (h : ReachableIf ok (code lockKey) Starts w) :
    w.rows.size ≤ MAX_TRACKED ∧ (∀ scope, (w.rows.under scope).size ≤ MAX_PAIRS_PER_IP) ∧
    ∀ k r, w.rows.get k = some r → allowedSince k r.windowStart w.log ≤ r.attempts.val :=
  have hk := ((outline ok lockKey).reachable h).shared
  ⟨hk.ceiling, hk.share, hk.counted⟩

/-- CORRECT: in every interleaving whose deletions by key run on rows unchanged since they were
    loaded, the table keeps its caps, a row counts every attempt admitted since its window started,
    and it stays until its pair succeeds, it is stale, or it is evicted under `make_room`'s rule. -/
theorem attempts_kept [DecidableEq τ] {lockKey : S → K}
    {w : World (S × P) Row (Lock K) (Answer S P) (Pc S P) τ}
    (h : ReachableIf Steady (code lockKey) Starts w) :
    w.rows.size ≤ MAX_TRACKED ∧ (∀ scope, (w.rows.under scope).size ≤ MAX_PAIRS_PER_IP) ∧
    (∀ k r, w.rows.get k = some r → allowedSince k r.windowStart w.log ≤ r.attempts.val) ∧
    ∀ w', StepIf Steady (code lockKey) Starts w w' →
      ∀ k r, w.rows.get k = some r → After w.toShared w'.toShared k r := by
  obtain ⟨hceiling, hshare, hcounted⟩ := bounds_hold h
  refine ⟨hceiling, hshare, hcounted, fun w' hstep k r hr => ?_⟩
  have hholds := (outline Steady lockKey).reachable h
  have hswept := (outline_swept lockKey).reachable h
  rcases hstep.rows_eq_or_commit with heq | ⟨i, t, ans, ht, hcode, heq⟩
  · exact .kept r (heq ▸ hr) rfl (le_refl _)
  · rw [heq]
    refine ((hholds.tx i t ht).outcome hholds.shared hcode).after (fun q now d sw hans => ?_) hr
    subst hans
    have hsw := hswept.tx i t ht
    obtain ⟨pc, pending, locks⟩ := t
    cases pc with
    | done ans => obtain rfl := Stmt.commit.inj hcode; exact hsw
    | writing q now before key entry rest path d sweep =>
      rw [code] at hcode
      split at hcode <;> exact absurd hcode (by simp)
    | opened | locked | timed | deleting | newPair | tableLocked | purging | counting | loadingAll
    | loadingAddress | failed | succeeded | clearing | purge | purgeRun =>
      exact absurd hcode (by simp [code])

/-- One pair of one address. -/
def lone : Listing (Unit × Unit) where
  list s := if ((), ()) ∈ s then [((), ())] else []
  mem_list s k := by
    obtain ⟨⟨⟩, ⟨⟩⟩ := k
    split <;> simp_all
  nodup s := by split <;> simp

/-- Its first attempt, alone. -/
theorem attempts_kept_first :
    ∃ w : World (Unit × Unit) Row (Lock Unit) (Answer Unit Unit) (Pc Unit Unit) ℕ,
      ReachableIf Steady (code id) Starts w ∧ w.log.length = 1 ∧
      ∃ r, w.rows.get ((), ()) = some r ∧ allowedSince ((), ()) r.windowStart w.log ≤ r.attempts.val := by
  have hbegin : StepIf Steady (code id) Starts
      (World.only ⟨FMap.empty, 0, []⟩ (0 : ℕ) none) _ :=
    World.beside_begin (Starts.admission ⟨(), (), lone⟩)
  have hscope := Relation.ReflTransGen.single hbegin |>.tail
    (World.only_step (by exact trivial) (.lock (.address ()) (.locked ⟨(), (), lone⟩) rfl))
    |>.tail (World.only_step (by exact trivial) (.clock (.timed ⟨(), (), lone⟩) rfl))
    |>.tail (World.only_step (by exact trivial) (.query _ rfl))
  have htable := hscope.tail
    (World.only_step (by exact trivial) (.lock .table (.tableLocked ⟨(), (), lone⟩) rfl))
    |>.tail (World.only_step (by exact trivial) (.clock (.purging ⟨(), (), lone⟩) rfl))
    |>.tail (World.only_step (by exact trivial) (.write _ _ rfl))
    |>.tail (World.only_step (by exact trivial) (.query _ rfl))
    |>.tail (World.only_step (by exact trivial) (.query _ rfl))
  have hwritten := htable.tail (World.only_step (by exact trivial) (.write _ _ rfl))
    |>.tail (World.beside_commit (a := .decided ⟨(), (), lone⟩ 0 .Allow none) rfl)
  have hreach : ReachableIf Steady (code id) Starts _ := ⟨0, by
    simpa [World.beside, World.init] using hwritten⟩
  exact ⟨_, hreach, rfl, _, rfl, (attempts_kept hreach).2.2.1 _ _ rfl⟩

/-! ### An attempt lost

    `MAX_TRACKED` addresses each try once at the epoch. Just after `WINDOW` a newcomer loads the full
    table and names every row, all stale; before it deletes them, one of these pairs tries again and
    is admitted. The newcomer's deletion takes the fresh row with the others. -/

section Lost

/-- The first `n` addresses, each with one attempt at the epoch. -/
structure Filled (n : ℕ) (rows : FMap (ℕ × ℕ) Row) : Prop where
  get : ∀ k, rows.get k = if k.1 < n ∧ k.2 = 0 then some (Entry.first 0).row else none

theorem Filled.size {n : ℕ} {rows : FMap (ℕ × ℕ) Row} (h : Filled n rows) : rows.size = n := by
  have hkeys : rows.keys = (Finset.range n).image fun i => (i, 0) := by
    ext ⟨i, j⟩
    rw [FMap.mem_keys_iff, h.get, Finset.mem_image]
    simp only [Finset.mem_range]
    constructor
    · rintro ⟨v, hv⟩
      split at hv
      · rename_i hij; exact ⟨i, hij.1, by rw [show j = 0 from hij.2]⟩
      · exact absurd hv (by simp)
    · rintro ⟨i', hi', heq⟩
      obtain ⟨rfl, rfl⟩ := Prod.mk.inj heq
      exact ⟨_, if_pos ⟨hi', rfl⟩⟩
  rw [FMap.size, hkeys, Finset.card_image_of_injective _ fun i j hij => (Prod.mk.inj hij).1,
    Finset.card_range]

theorem Filled.get_none {n m : ℕ} {rows : FMap (ℕ × ℕ) Row} (h : Filled n rows) (hm : n ≤ m) (p : ℕ) :
    rows.get (m, p) = none := (h.get _).trans (if_neg (by simp; omega))

/-- No row has expired before `WINDOW` and `LOCKOUT` are over. -/
theorem Filled.expired_eq_false {n : ℕ} {rows : FMap (ℕ × ℕ) Row} (h : Filled n rows) {now : ℤ}
    (hnow : now < WINDOW + LOCKOUT) {k : ℕ × ℕ} {r : Row} (hr : rows.get k = some r) :
    expired now k r = false := by
  rw [h.get] at hr
  split at hr
  · obtain rfl := Option.some.inj hr
    rw [expired, Entry.windowStart_row, decide_eq_false_iff_not, purgeCutoff,
      show (Entry.first 0).windowStart = 0 from rfl]
    omega
  · exact absurd hr (by simp)

theorem Filled.filter_expired {n : ℕ} {rows : FMap (ℕ × ℕ) Row} (h : Filled n rows) {now : ℤ}
    (hnow : now < WINDOW + LOCKOUT) : (rows.filter fun k r => !expired now k r) = rows :=
  FMap.ext fun k => by
    rw [FMap.get_filter]
    rcases hk : rows.get k with _ | r
    · rfl
    · simp [Option.filter, h.expired_eq_false hnow hk]

/-- An address the table does not know. -/
theorem loadAddress_unknown {rows : FMap (S × P) Row} (order : Listing (S × P)) {scope : S}
    (h : ∀ p, rows.get (scope, p) = none) : loadAddress order rows scope = Table.default := by
  obtain ⟨hcounted, hrows⟩ := loadAddress_spec order rows scope
  refine hcounted.eq Table.counted_default (hrows.trans (FMap.ext fun k => ?_))
  rw [FMap.get_filter, get_entries]
  have hdefault : (Table.default : Table S P).rows.get k = none := rfl
  rw [hdefault]
  rcases hk : rows.get k with _ | r
  · rfl
  · have hne : ¬k.1 = scope := fun heq => by
      have hnone := h k.2
      rw [← heq] at hnone
      exact absurd (hnone.symm.trans hk) (by simp)
    simp [Option.filter, hne]

omit [DecidableEq P] in
theorem refuseAtShare_default (scope : S) (pair : P) (now : ℤ) :
    (Table.default : Table S P).refuseAtShare scope pair now = (Table.default, none) := rfl

/-- One more address, alone, at the epoch. -/
theorem Filled.runs {n : ℕ} {s : Shared (ℕ × ℕ) Row (Answer ℕ ℕ)} (h : Filled n s.rows)
    (hclock : s.clock = 0) (hn : n < MAX_TRACKED) :
    ∃ s', Tx.Runs (code id) s (Tx.begin (.opened ⟨n, 0, Listing.any _⟩)) s' ∧
      Filled (n + 1) s'.rows ∧ s'.clock = 0 := by
  set q : Request ℕ ℕ := ⟨n, 0, Listing.any _⟩ with hq
  have hunknown : loadAddress q.order s.rows q.scope = Table.default :=
    loadAddress_unknown _ fun p => h.get_none (le_refl n) p
  have hleft := @Filled.filter_expired _ _ h s.clock (by rw [hclock]; decide)
  have htable : newPairTable q s.rows s.clock = ⟨FMap.empty, n⟩ := by
    simp only [newPairTable, hleft, h.size, if_neg (not_le.mpr hn), hunknown]
    rfl
  have hadm := @Table.admission_new _ _ _ _ q.order ⟨FMap.empty, n⟩ q.scope q.pair s.clock rfl (by decide : 0 < MAX_PAIRS_PER_IP)
  have hroom : ((⟨FMap.empty, n⟩ : Table ℕ ℕ).reclaimAddress q.scope s.clock).makeRoom q.order s.clock
      = ⟨FMap.empty, n⟩ := if_pos hn
  rw [hroom] at hadm
  obtain ⟨s', sweep, hrun, _, hget⟩ := @alone_new _ _ _ _ _ id s q
    (by rw [get_entries, show s.rows.get q.key = none from h.get_none (le_refl n) 0]; rfl)
    (by rw [hunknown, refuseAtShare_default]) FMap.empty
    (fun k e hk => absurd hk (by simp)) (by rw [htable]; rfl) (by rw [htable, hadm])
    (by rw [htable, hadm, rows_put]; rfl)
  refine ⟨s', hrun, ⟨fun k => ?_⟩, hrun.clock_eq.trans hclock⟩
  rw [hget, htable, hclock]
  by_cases hk : k = q.key
  · rw [if_pos hk, if_pos]
    rw [hk]
    exact ⟨Nat.lt_succ_self n, rfl⟩
  · rw [if_neg hk, h.get]
    have hiff : (k.1 < n + 1 ∧ k.2 = 0) ↔ (k.1 < n ∧ k.2 = 0) := by
      constructor
      · rintro ⟨h1, h2⟩
        refine ⟨lt_of_le_of_ne (Nat.lt_succ_iff.mp h1) fun heq => hk ?_, h2⟩
        exact Prod.ext heq h2
      · rintro ⟨h1, h2⟩
        exact ⟨h1.trans (Nat.lt_succ_self n), h2⟩
    simp only [hiff]
    split
    · rfl
    · rfl

/-- A full table, at the epoch. -/
theorem exists_filled (i : ℕ) : ∃ s : Shared (ℕ × ℕ) Row (Answer ℕ ℕ),
    ReflTransGen (Step (code id) Starts) (World.init 0) (World.only s i none) ∧
      Filled MAX_TRACKED s.rows ∧ s.clock = 0 := by
  have hrun : ∀ n, n ≤ MAX_TRACKED → ∃ s : Shared (ℕ × ℕ) Row (Answer ℕ ℕ),
      ReflTransGen (Step (code id) Starts) (World.init 0) (World.only s i none) ∧
        Filled n s.rows ∧ s.clock = 0 := by
    intro n
    induction n with
    | zero =>
      intro _
      refine ⟨⟨FMap.empty, 0, []⟩, ?_, ⟨fun k => ?_⟩, rfl⟩
      · have heq : (World.init 0 : World (ℕ × ℕ) Row (Lock ℕ) (Answer ℕ ℕ) (Pc ℕ ℕ) ℕ)
            = World.only ⟨FMap.empty, 0, []⟩ i none := by simp [World.beside, World.init]
        rw [heq]
      · rw [if_neg (by simp)]
        rfl
    | succ n ih =>
      intro hn
      obtain ⟨s, hsteps, hfilled, hclock⟩ := ih (by omega)
      obtain ⟨s', ⟨m, hm⟩, hfilled', hclock'⟩ := hfilled.runs hclock hn
      exact ⟨s', (hsteps.tail (World.beside_begin (Starts.admission _))).trans
        (Tx.run_steps i m s _ hm), hfilled', hclock'⟩
  exact hrun MAX_TRACKED (le_refl _)

/-- The newcomer, and the first pair trying again. -/
noncomputable def newcomer : Request ℕ ℕ := ⟨MAX_TRACKED, 0, Listing.any _⟩

noncomputable def returning : Request ℕ ℕ := ⟨0, 0, Listing.any _⟩

/-- Just after the window of every row is over. -/
def later : ℤ := WINDOW + 1

/-- The newcomer has loaded the full table, and is about to delete every row by key. -/
theorem newcomer_deletes {s : Shared (ℕ × ℕ) Row (Answer ℕ ℕ)} (h : Filled MAX_TRACKED s.rows)
    (hclock : s.clock = later) :
    ∃ (before : Table ℕ ℕ) (changes : Changes ℕ ℕ),
      ReflTransGen (Step (code id) Starts) (World.only s 1 none)
        (World.only s (1 : ℕ) (some ⟨.deleting newcomer later before changes .table .Allow,
          FMap.empty, [.table, .address MAX_TRACKED]⟩)) ∧
      before.rows.get newcomer.key = none ∧
      changes.written = [(newcomer.key, Entry.first later)] ∧ ((0, 0) : ℕ × ℕ) ∈ changes.removed := by
  have hunknown : loadAddress newcomer.order s.rows newcomer.scope = Table.default :=
    loadAddress_unknown _ fun p => h.get_none (le_refl _) p
  have hgone : FMap.deleteWhere (expired s.clock) s.rows = FMap.empty := FMap.ext fun k => by
    rcases hk : (FMap.deleteWhere (expired s.clock) s.rows).get k with _ | o
    · rfl
    · obtain ⟨_, r, hr, hexp⟩ := FMap.get_deleteWhere.mp hk
      rw [h.expired_eq_false (by rw [hclock]; decide) hr] at hexp
      exact absurd hexp (by simp)
  -- every row is loaded, all of them stale
  obtain ⟨hcounted, hrows⟩ := loadAll_spec newcomer.order s.rows
  set before := loadAll newcomer.order s.rows with hbefore
  have hget : ∀ k, before.rows.get k = if k.1 < MAX_TRACKED ∧ k.2 = 0 then some (Entry.first 0)
      else none := fun k => by
    rw [hrows, get_entries, h.get]
    split <;> rfl
  have hinv : before.Inv := by
    refine hcounted.inv (fun ip => ?_) ?_
    · refine (FMap.size_le_of_get (n := FMap.one (0 : ℕ) ()) fun p hp => ?_).trans (by decide)
      rw [FMap.get_under, hget] at hp
      split at hp
      · rename_i hcond
        rw [FMap.get_one, if_pos hcond.2]
        rfl
      · exact absurd hp (by simp)
    · rw [hcounted.total_eq, hrows, size_entries, h.size]
  have hnone : ∀ p, before.get newcomer.scope p = none := fun p =>
    (hget (MAX_TRACKED, p)).trans (if_neg (by simp))
  have hlive : before.liveRows later = FMap.empty := FMap.ext fun k => by
    rw [Table.liveRows, FMap.get_filter, hget]
    split
    · rw [Option.filter_some, if_neg (by decide)]
      rfl
    · rfl
  have hadm := Table.admission_unknown newcomer.order hinv hnone newcomer.pair later
  have hroom : (before.makeRoom newcomer.order later).rows = FMap.empty := by
    obtain ⟨_, _, hmade⟩ := Table.makeRoom_spec newcomer.order hcounted hinv.ceiling later
    cases hmade with
    | had hfree _ =>
      rw [hcounted.total_eq, hrows, size_entries, h.size] at hfree
      exact absurd hfree (lt_irrefl _)
    | swept _ _ hr => rw [hr, hlive]
    | evicted p e hfull _ _ =>
      rw [hlive] at hfull
      exact absurd hfull (by decide)
  obtain ⟨hwritten, hremoved⟩ := @between_new _ _ _ _ newcomer.order before
    (before.admission newcomer.order newcomer.scope newcomer.pair later).1 newcomer.key _ FMap.empty
    (hnone newcomer.pair) (fun j e hj => absurd hj (by simp))
    (by rw [hadm, rows_put]; exact congrArg (fun m => m.set newcomer.key (some (Entry.first later))) hroom)
  set changes := Changes.between newcomer.order before
    (before.admission newcomer.order newcomer.scope newcomer.pair later).1 with hchanges
  have hmem : ((0, 0) : ℕ × ℕ) ∈ changes.removed :=
    (hremoved _).mpr ⟨⟨_, (hget _).trans (if_pos ⟨by decide, rfl⟩)⟩, rfl⟩
  have hnil : changes.removed ≠ [] := List.ne_nil_of_mem hmem
  have hstart : decideNewPair newcomer later before
      = .deleting newcomer later before changes .table .Allow := by
    have hsplit : before.admission newcomer.order newcomer.scope newcomer.pair later
        = ((before.admission newcomer.order newcomer.scope newcomer.pair later).1, .Allow) :=
      Prod.ext rfl (by rw [hadm])
    rw [decideNewPair, hsplit]
    exact startWrite_of_ne hnil
  refine ⟨before, changes, ?_, hnone 0, hwritten, hmem⟩
  -- the steps to there, with nothing beside them
  set q := newcomer with hq
  have hsee : ∀ pc locks, (⟨pc, FMap.empty, locks⟩ : Tx (ℕ × ℕ) Row (Lock ℕ) (Pc ℕ ℕ)).visible s.rows
      = s.rows := fun _ _ => Tx.visible_of_empty rfl _
  have hasked : Tx.Advance (code id) s ⟨.timed q s.clock, FMap.empty, [.address MAX_TRACKED]⟩
      ⟨.newPair q, FMap.empty, [.address MAX_TRACKED]⟩ := by
    have hquery : Tx.Advance (code id) s
      ⟨.timed q s.clock, FMap.empty, [.address MAX_TRACKED]⟩ _ := .query _ rfl
    rw [hsee, hunknown] at hquery
    exact hquery
  have hpurged : Tx.Advance (code id) s
      ⟨.purging q s.clock, FMap.empty, [.table, .address MAX_TRACKED]⟩
      ⟨.counting q s.clock, FMap.empty, [.table, .address MAX_TRACKED]⟩ := by
    have hwrite : Tx.Advance (code id) s
      ⟨.purging q s.clock, FMap.empty, [.table, .address MAX_TRACKED]⟩ _ := .write _ _ rfl
    rw [hsee, hgone, FMap.empty_merge] at hwrite
    exact hwrite
  have hcounted : Tx.Advance (code id) s
      ⟨.counting q s.clock, FMap.empty, [.table, .address MAX_TRACKED]⟩
      ⟨.loadingAll q s.clock, FMap.empty, [.table, .address MAX_TRACKED]⟩ := by
    have hquery : Tx.Advance (code id) s
      ⟨.counting q s.clock, FMap.empty, [.table, .address MAX_TRACKED]⟩ _ := .query _ rfl
    rw [hsee, h.size, if_pos (le_refl _)] at hquery
    exact hquery
  have hloaded : Tx.Advance (code id) s
      ⟨.loadingAll q s.clock, FMap.empty, [.table, .address MAX_TRACKED]⟩
      ⟨.deleting q later before changes .table .Allow, FMap.empty,
        [.table, .address MAX_TRACKED]⟩ := by
    have hquery : Tx.Advance (code id) s
      ⟨.loadingAll q s.clock, FMap.empty, [.table, .address MAX_TRACKED]⟩ _ := .query _ rfl
    rw [hsee, ← hbefore, hclock, hstart] at hquery
    rw [hclock]
    exact hquery
  exact ReflTransGen.single (World.beside_begin (Starts.admission q))
    |>.tail (World.only_step trivial (.lock (.address MAX_TRACKED) (.locked q) rfl))
    |>.tail (World.only_step trivial (.clock (.timed q) rfl))
    |>.tail (World.only_step trivial hasked)
    |>.tail (World.only_step trivial (.lock .table (.tableLocked q) rfl))
    |>.tail (World.only_step trivial (.clock (.purging q) rfl))
    |>.tail (World.only_step trivial hpurged)
    |>.tail (World.only_step trivial hcounted)
    |>.tail (World.only_step trivial hloaded)

/-- Meanwhile the first pair is admitted afresh, beside any transaction that holds neither its lock
    nor a row. -/
theorem returning_admitted {s : Shared (ℕ × ℕ) Row (Answer ℕ ℕ)} (h : Filled MAX_TRACKED s.rows)
    (hclock : s.clock = later) {rest : ℕ → Option (Tx (ℕ × ℕ) Row (Lock ℕ) (Pc ℕ ℕ))}
    (hrest : ∀ j u, rest j = some u → u.pending = FMap.empty ∧ .address 0 ∉ u.locks) :
    ∃ s', ReflTransGen (Step (code id) Starts) (World.beside rest s 2 none)
        (World.beside rest s' 2 none) ∧
      s'.clock = later ∧ s'.rows = s.rows.set (0, 0) (some (Entry.first later).row) := by
  set q := returning with hq
  have hrow : s.rows.get (0, 0) = some (Entry.first 0).row := (h.get _).trans (if_pos ⟨by decide, rfl⟩)
  have hapart : ∀ (pc : Pc ℕ ℕ) (pending : FMap (ℕ × ℕ) (Option Row)) (j : ℕ)
      (u : Tx (ℕ × ℕ) Row (Lock ℕ) (Pc ℕ ℕ)), j ≠ 2 → rest j = some u →
      (⟨pc, pending, [.address 0]⟩ : Tx (ℕ × ℕ) Row (Lock ℕ) (Pc ℕ ℕ)).Apart u := by
    intro pc pending j u _ hu
    obtain ⟨hpending, hlock⟩ := hrest j u hu
    refine ⟨fun l hl => ?_, fun k _ => by rw [hpending]; simp⟩
    rw [List.mem_singleton.mp hl]
    exact hlock
  obtain ⟨_, hrows⟩ := loadAddress_spec q.order s.rows q.scope
  set loaded := loadAddress q.order s.rows q.scope with hloaded
  have hheld : loaded.get q.scope q.pair = some (Entry.first 0) := by
    rw [← Table.get_rows, hrows, FMap.get_filter_eq_some]
    exact ⟨get_entries_eq_some.mpr ⟨_, hrow, rfl⟩, decide_eq_true rfl⟩
  have hadm : (Entry.first 0).admission later = (Entry.first later, .Allow) := by decide
  obtain ⟨hremoved, hwritten⟩ := @between_held _ _ _ _ q.order loaded
    ⟨Table.put loaded.byIp q.scope q.pair (Entry.first later), loaded.total⟩ q.key _ _ hheld (rows_put ..)
  have hasked : Tx.Advance (code id) s ⟨.timed q s.clock, FMap.empty, [.address 0]⟩
      ⟨.writing q later loaded q.key (Entry.first later) [] .held .Allow none, FMap.empty,
        [.address 0]⟩ := by
    have hquery : Tx.Advance (code id) s ⟨.timed q s.clock, FMap.empty, [.address 0]⟩ _ :=
      .query _ rfl
    have hsplit : loaded.refuseAtShare q.scope q.pair later = (loaded, none) := by
      rw [Table.refuseAtShare, if_pos (by rw [hheld]; rfl)]
    simp only [Tx.visible_of_empty, ← hloaded, hclock, hsplit, hheld, Option.isSome_some, if_true,
      Table.admission_held q.order hheld, hadm] at hquery
    rw [startWrite_of_nil hremoved, hwritten, if_neg (by decide)] at hquery
    rw [hclock]
    exact hquery
  have hwrote : Tx.Advance (code id) s
      ⟨.writing q later loaded q.key (Entry.first later) [] .held .Allow none, FMap.empty,
        [.address 0]⟩
      ⟨.done (.decided q later .Allow none), FMap.one q.key (some (Entry.first later).row),
        [.address 0]⟩ := by
    have hwrite : Tx.Advance (code id) s
      ⟨.writing q later loaded q.key (Entry.first later) [] .held .Allow none, FMap.empty,
        [.address 0]⟩ _ := .write _ _
      (by rw [code, if_pos (by rw [show loaded.get q.key.1 q.key.2 = _ from hheld]; rfl)])
    have hseen : s.rows.get q.key = some (Entry.first 0).row := hrow
    simp only [Tx.visible_of_empty, FMap.updateAt, hseen, Option.isSome_some, if_true,
      FMap.empty_merge] at hwrite
    exact hwrite
  refine ⟨_, ReflTransGen.single (World.beside_begin (Starts.admission q))
    |>.tail (World.beside_step trivial (.lock (.address 0) (.locked q) rfl) (hapart _ _))
    |>.tail (World.beside_step trivial (.clock (.timed q) rfl) (hapart _ _))
    |>.tail (World.beside_step trivial hasked (hapart _ _))
    |>.tail (World.beside_step trivial hwrote (hapart _ _))
    |>.tail (World.beside_commit rfl), hclock, ?_⟩
  exact FMap.patch_one _ _ _

/-- The rule that could evict the fresh row does not apply: it is the one live row. -/
theorem not_evicted {rows : FMap (ℕ × ℕ) Row} (h : Filled MAX_TRACKED rows) (k : ℕ × ℕ) (e : Entry) :
    ¬EvictedUnder (entries (rows.set (0, 0) (some (Entry.first later).row))) later k e := by
  rintro ⟨hfull, _⟩
  have hone : ((entries (rows.set (0, 0) (some (Entry.first later).row))).filter
      fun _ e => live later e).size ≤ (FMap.one ((0, 0) : ℕ × ℕ) ()).size := by
    refine FMap.size_le_of_get fun j hj => ?_
    rw [FMap.get_filter, get_entries, FMap.get_set] at hj
    rw [FMap.get_one]
    split at hj
    · rename_i hj0
      rw [if_pos hj0]
      rfl
    · rw [h.get] at hj
      split at hj
      · rw [Option.map_some, Option.filter_some, if_neg (by decide)] at hj
        exact absurd hj (by simp)
      · exact absurd hj (by simp)
  rw [hfull] at hone
  exact absurd hone (by decide)

/-- An attempt admitted is lost: its row, live, not succeeded and not evicted, is deleted. -/
theorem attempt_lost :
    ¬∀ w w' : World (ℕ × ℕ) Row (Lock ℕ) (Answer ℕ ℕ) (Pc ℕ ℕ) ℕ,
      Reachable (code id) Starts w → Step (code id) Starts w w' →
      ∀ k r, w.rows.get k = some r → After w.toShared w'.toShared k r := by
  intro hclaim
  obtain ⟨s₀, hfill, hfilled, hclock₀⟩ := exists_filled 1
  -- time passes, the newcomer chooses, the first pair comes back
  have htick : Step (code id) Starts (World.only s₀ 1 none)
      (World.only { s₀ with clock := later } (1 : ℕ) none) :=
    .tick _ later (by show s₀.clock ≤ later; rw [hclock₀]; decide)
  obtain ⟨before, changes, hchoose, hnone, hwritten, hmem⟩ :=
    @newcomer_deletes { s₀ with clock := later } hfilled rfl
  set t₁ : Tx (ℕ × ℕ) Row (Lock ℕ) (Pc ℕ ℕ) := ⟨.deleting newcomer later before changes .table .Allow,
    FMap.empty, [.table, .address MAX_TRACKED]⟩ with ht₁
  obtain ⟨s₂, hreturn, hclock₂, hrows₂⟩ := @returning_admitted { s₀ with clock := later }
    hfilled rfl (Function.update (fun _ => none) 1 (some t₁)) fun j u hu => by
      rcases of_update hu with ⟨_, he⟩ | ⟨_, hu⟩
      · obtain rfl := Option.some.inj he
        exact ⟨rfl, by simp [ht₁, MAX_TRACKED]⟩
      · exact absurd hu (by simp)
  have hworld : ∀ s : Shared (ℕ × ℕ) Row (Answer ℕ ℕ),
      World.beside (Function.update (fun _ => none) 1 (some t₁)) s 2 none
        = World.only s (1 : ℕ) (some t₁) := fun s => by
    simp only [World.beside]
    congr 1
    refine Function.update_eq_self_iff.mpr ?_
    simp
  rw [hworld, hworld] at hreturn
  -- the newcomer deletes what it chose, the fresh row with the rest
  set sw : Sweep ℕ ℕ := ⟨before, changes.removed, s₂.rows⟩ with hsw
  set gone := FMap.deleteWhere (fun k _ => decide (k ∈ changes.removed)) s₂.rows with hgone
  have hfresh : s₂.rows.get (0, 0) = some (Entry.first later).row := by
    rw [hrows₂, FMap.get_set_self]
  have hgone₀ : gone.get (0, 0) = some none :=
    FMap.get_deleteWhere.mpr ⟨rfl, _, hfresh, decide_eq_true hmem⟩
  have hunseen : (s₂.rows.patch gone).get newcomer.key = none := by
    have hrow : s₂.rows.get newcomer.key = none := by
      rw [hrows₂, FMap.get_set_ne _ _ (by simp [Request.key, newcomer, MAX_TRACKED])]
      exact hfilled.get_none (le_refl _) 0
    rw [FMap.get_patch, hrow]
    rcases hk : gone.get newcomer.key with _ | o
    · rfl
    · exact (FMap.get_deleteWhere.mp hk).1
  have hdelete : Tx.Advance (code id) s₂ t₁
      ⟨.writing newcomer later before newcomer.key (Entry.first later) [] .table .Allow (some sw),
        gone, [.table, .address MAX_TRACKED]⟩ := by
    have hwrite : Tx.Advance (code id) s₂ t₁ _ := .write _ _ rfl
    rw [show t₁.visible s₂.rows = s₂.rows from Tx.visible_of_empty rfl _, hwritten,
      show t₁.pending.merge _ = _ from FMap.empty_merge _] at hwrite
    exact hwrite
  have hinsert : Tx.Advance (code id) s₂
      ⟨.writing newcomer later before newcomer.key (Entry.first later) [] .table .Allow (some sw),
        gone, [.table, .address MAX_TRACKED]⟩
      ⟨.done (.decided newcomer later .Allow (some sw)),
        gone.merge (FMap.one newcomer.key (some (Entry.first later).row)),
        [.table, .address MAX_TRACKED]⟩ := by
    have hwrite : Tx.Advance (code id) s₂
      ⟨.writing newcomer later before newcomer.key (Entry.first later) [] .table .Allow (some sw),
        gone, [.table, .address MAX_TRACKED]⟩ _ := .write _ _
      (by rw [code, if_neg (by rw [show before.get newcomer.key.1 newcomer.key.2 = _ from hnone]; simp)])
    simp only [Tx.visible, FMap.insertAt, hunseen, Option.isSome_none, Bool.false_eq_true,
      if_false] at hwrite
    exact hwrite
  set t₃ : Tx (ℕ × ℕ) Row (Lock ℕ) (Pc ℕ ℕ) := ⟨.done (.decided newcomer later .Allow (some sw)),
    gone.merge (FMap.one newcomer.key (some (Entry.first later).row)),
    [.table, .address MAX_TRACKED]⟩ with ht₃
  have hreach : Reachable (code id) Starts (World.only s₂ (1 : ℕ) (some t₃)) :=
    ⟨0, (((hfill.tail htick).trans hchoose).trans hreturn)
      |>.tail (World.only_step trivial hdelete) |>.tail (World.only_step trivial hinsert)⟩
  have hlost : (s₂.commit t₃ (.decided newcomer later .Allow (some sw))).rows.get (0, 0) = none := by
    show (s₂.rows.patch (gone.merge _)).get (0, 0) = none
    rw [FMap.get_patch, FMap.get_merge, FMap.get_one,
      if_neg (by simp [Request.key, newcomer, MAX_TRACKED]), hgone₀]
    rfl
  have hafter := hclaim _ _ hreach (World.beside_commit rfl) (0, 0) _ hfresh
  cases hafter with
  | kept r' h => exact absurd (hlost.symm.trans h) (by simp)
  | stale h =>
    rw [show (World.only s₂ (1 : ℕ) (some t₃)).clock = later from hclock₂] at h
    exact absurd h (by decide)
  | succeeded h => exact absurd h (by simp [World.beside, Shared.commit])
  | evicted q now d sw' h _ hrule =>
    simp only [World.beside, Shared.commit, List.head?_cons, Option.map_some, Option.some.injEq,
      Answer.decided.injEq] at h
    obtain ⟨_, rfl, _, rfl⟩ := h
    rw [hsw, hrows₂] at hrule
    exact not_evicted hfilled _ _ hrule

end Lost

end Home.Throttle
