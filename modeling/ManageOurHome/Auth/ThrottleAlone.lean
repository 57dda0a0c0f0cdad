import ManageOurHome.Auth.ThrottleWrites

/-! @src apps/api/src/auth/throttle.rs | layer:refinement | family:rate-limit

    The store decides like the full table. An admission run alone loads its address's rows, or every
    row, or its address's rows under a total it counted; whichever it is, its decision is the one
    `Table.admission` takes on the table of all rows, and the rows it leaves are that table's, but for
    pairs that are stale by then. -/

namespace Home.Throttle

open FiniteMap ReadCommitted

variable {S P K : Type*} [DecidableEq S] [DecidableEq P]

/-! ### A table is its rows -/

namespace Table

theorem get_byIp {t : Table S P} (h : t.Counted) (ip : S) :
    t.byIp.get ip = (t.rows.under ip).unlessEmpty := by
  rcases hip : t.byIp.get ip with _ | pairs
  · have hzero : (t.rows.under ip).size = 0 := FMap.size_eq_zero.mpr fun email => by
      rw [FMap.get_under, get_rows, get, hip]; rfl
    rw [FMap.unlessEmpty, if_pos hzero]
  · have heq : t.rows.under ip = pairs := FMap.ext fun email => by
      rw [FMap.get_under, get_rows, get, hip]; rfl
    have := h.no_empty ip pairs hip
    rw [heq, FMap.unlessEmpty, if_neg (by omega)]

/-- Two counted tables with the same rows are the same table. -/
theorem Counted.eq {t t' : Table S P} (h : t.Counted) (h' : t'.Counted) (hrows : t.rows = t'.rows) :
    t = t' := by
  have hby : t.byIp = t'.byIp := FMap.ext fun ip => by rw [get_byIp h, get_byIp h', hrows]
  have htotal : t.total = t'.total := by rw [h.total_eq, h'.total_eq, hrows]
  obtain ⟨b, n⟩ := t
  obtain ⟨b', n'⟩ := t'
  obtain rfl : b = b' := hby
  obtain rfl : n = n' := htotal
  rfl

omit [DecidableEq P] in
/-- The share is decided on the address's own pairs. -/
theorem refuseAtShare_congr {t t' : Table S P} {ip : S} (h : t.byIp.get ip = t'.byIp.get ip)
    (email : P) (now : ℤ) :
    (t.refuseAtShare ip email now).2 = (t'.refuseAtShare ip email now).2 := by
  have hget : t.get ip email = t'.get ip email := by rw [get, get, h]
  have hself : (t.reclaimAddress ip now).byIp.get ip = (t'.reclaimAddress ip now).byIp.get ip := by
    rw [reclaimAddress, reclaimAddress, h]
    rcases hip : t'.byIp.get ip with _ | pairs
    · rw [h, hip]
    · simp only [FMap.get_set_self]
  have hheld : (t.reclaimAddress ip now).heldBy ip = (t'.reclaimAddress ip now).heldBy ip := by
    rw [heldBy, heldBy, FMap.group, FMap.group, hself]
  have hfrees : (t.reclaimAddress ip now).addressFreesUpIn ip now
      = (t'.reclaimAddress ip now).addressFreesUpIn ip now := by
    unfold addressFreesUpIn
    rw [hself]
  simp only [refuseAtShare, hget]
  split
  · rfl
  · simp only [hheld, hfrees]

/-- The table once its stale pairs are swept. -/
def swept (t : Table S P) (now : ℤ) : Table S P :=
  ⟨retainLive t.byIp now, ∑ ip ∈ (retainLive t.byIp now).keys,
    ((retainLive t.byIp now).group ip).size⟩

theorem counted_swept (t : Table S P) (now : ℤ) : (t.swept now).Counted :=
  counted_retainLive t.byIp now

theorem rows_swept (t : Table S P) (now : ℤ) : (t.swept now).rows = t.liveRows now :=
  flat_retainLive t.byIp now

theorem swept_congr {t t' : Table S P} {now : ℤ} (h : t.liveRows now = t'.liveRows now) :
    t.swept now = t'.swept now :=
  (counted_swept t now).eq (counted_swept t' now) (by rw [rows_swept, rows_swept, h])

theorem liveRows_swept (t : Table S P) (now : ℤ) : (t.swept now).liveRows now = t.liveRows now := by
  rw [liveRows, rows_swept, liveRows]
  exact FMap.filter_filter_of_imp fun _ _ h => h

theorem makeRoom_of_swept (order : Listing (S × P)) {t t' : Table S P} {now : ℤ}
    (hfull : MAX_TRACKED ≤ t.total) (hfull' : MAX_TRACKED ≤ t'.total)
    (h : t.swept now = t'.swept now) : t.makeRoom order now = t'.makeRoom order now := by
  have hby : retainLive t.byIp now = retainLive t'.byIp now := congrArg Table.byIp h
  unfold makeRoom
  rw [if_neg (not_lt.mpr hfull), if_neg (not_lt.mpr hfull'), hby]

/-- With room among the live pairs, none of them goes. -/
theorem liveRows_makeRoom (order : Listing (S × P)) {t : Table S P} {now : ℤ}
    (h : (t.liveRows now).size < MAX_TRACKED) :
    (t.makeRoom order now).liveRows now = t.liveRows now := by
  have hsize : (t.swept now).total = (t.liveRows now).size := by
    rw [(counted_swept t now).total_eq, rows_swept]
  by_cases hroom : t.total < MAX_TRACKED
  · rw [makeRoom, if_pos hroom]
  · have heq : t.makeRoom order now = t.swept now := by
      unfold makeRoom
      rw [if_neg hroom]
      exact if_pos (show (t.swept now).total < MAX_TRACKED by omega)
    rw [heq, liveRows_swept]

/-- The room made depends on the live pairs alone, but for stale ones. -/
theorem liveRows_makeRoom_congr (order : Listing (S × P)) {t t' : Table S P} {now : ℤ}
    (ht : t.Counted) (ht' : t'.Counted) (h : t.liveRows now = t'.liveRows now) :
    (t.makeRoom order now).liveRows now = (t'.makeRoom order now).liveRows now := by
  by_cases hroom : (t.liveRows now).size < MAX_TRACKED
  · rw [liveRows_makeRoom order hroom, liveRows_makeRoom order (h ▸ hroom), h]
  · have hle : ∀ {u : Table S P}, u.Counted → u.liveRows now = t.liveRows now →
        MAX_TRACKED ≤ u.total := by
      intro u hu hlive
      have := FMap.size_filter_le u.rows fun _ e => live now e
      rw [hu.total_eq]
      rw [← hlive, liveRows] at hroom
      omega
    rw [makeRoom_of_swept order (hle ht rfl) (hle ht' h.symm) (swept_congr h)]

end Table

/-! ### A write alone -/

/-- `write`, run alone: the named rows are deleted, and the changed ones written. -/
theorem runs_startWrite {lockKey : S → K} {s : Shared (S × P) Row (Answer S P)}
    {t : Tx (S × P) Row (Lock K) (Pc S P)} {q : Request S P} {now : ℤ} {before after : Table S P}
    {path : Path} {d : Decision} (hat : t.at_ = startWrite q now before after path d)
    (hw : (Changes.between q.order before after).written = [] ∨
      ∃ e, (Changes.between q.order before after).written = [(q.key, e)] ∧
        ((before.get q.scope q.pair).isSome ↔ ((t.visible s.rows).get q.key).isSome) ∧
        q.key ∉ (Changes.between q.order before after).removed) :
    ∃ s' sweep, Tx.Runs (code lockKey) s t s' ∧
      s'.log = ⟨.decided q now d sweep, s'.rows, s.clock⟩ :: s.log ∧
      s'.rows = (Changes.between q.order before after).written.foldl
        (fun m ke => m.set ke.1 (some ke.2.row))
        ((t.visible s.rows).filter fun k _ => k ∉ (Changes.between q.order before after).removed) := by
  set changes := Changes.between q.order before after with hchanges
  -- the rows written, from a transaction whose deletion is made
  have hrows : ∀ (u : Tx (S × P) Row (Lock K) (Pc S P)) (sweep : Option (Sweep S P)),
      u.at_ = writeRows q now before path d sweep changes.written →
      u.visible s.rows = (t.visible s.rows).filter (fun k _ => k ∉ changes.removed) →
      ∃ s' sweep, Tx.Runs (code lockKey) s u s' ∧
        s'.log = ⟨.decided q now d sweep, s'.rows, s.clock⟩ :: s.log ∧
        s'.rows = changes.written.foldl (fun m ke => m.set ke.1 (some ke.2.row))
          ((t.visible s.rows).filter fun k _ => k ∉ changes.removed) := by
    intro u sweep hu hvis
    rcases hw with hnil | ⟨e, hone, hheld, hkey⟩
    · rw [hnil] at hu ⊢
      exact ⟨s.commit u (.decided q now d sweep), sweep, Tx.Runs.commit (by rw [hu]; rfl), rfl, hvis⟩
    · rw [hone] at hu ⊢
      have hsee : (u.visible s.rows).get q.key = (t.visible s.rows).get q.key := by
        rw [hvis, FMap.get_filter]
        rcases (t.visible s.rows).get q.key with _ | r
        · rfl
        · simp [Option.filter, hkey]
      have hu' : u.at_ = .writing q now before q.key e [] path d sweep := hu
      have hset : ∀ w : FMap (S × P) (Option Row), w = FMap.one q.key (some e.row) →
          s.rows.patch (u.pending.merge w)
            = ((t.visible s.rows).filter fun k _ => k ∉ changes.removed).set q.key (some e.row) := by
        rintro w rfl
        rw [FMap.patch_merge, FMap.patch_one, ← hvis]
        rfl
      rcases hb : (before.get q.scope q.pair).isSome with _ | _
      · have hnone : ((u.visible s.rows).get q.key).isSome = false := by
          rw [hsee]; rw [hb] at hheld; simpa using hheld
        refine ⟨_, sweep, Tx.Runs.write (by
            rw [hu', code, if_neg (by rw [show (before.get q.key.1 q.key.2).isSome = _ from hb]; simp)])
          (Tx.Runs.commit (a := .decided q now d sweep) ?_), rfl, ?_⟩
        · simp only [hnone]
          rfl
        · refine hset _ ?_
          rw [FMap.insertAt, hnone]
          rfl
      · have hsome : ((u.visible s.rows).get q.key).isSome = true := by
          rw [hsee]; exact hheld.mp hb
        refine ⟨_, sweep, Tx.Runs.write (by
            rw [hu', code, if_pos (by rw [show (before.get q.key.1 q.key.2).isSome = _ from hb])])
          (Tx.Runs.commit (a := .decided q now d sweep) ?_), rfl, ?_⟩
        · simp only [hsome]
          rfl
        · refine hset _ ?_
          rw [FMap.updateAt, hsome]
          rfl
  by_cases hnil : changes.removed = []
  · refine hrows t none (by rw [hat, startWrite, ← hchanges, if_pos hnil]) ?_
    refine FMap.ext fun k => ?_
    rw [FMap.get_filter, hnil]
    simp
  · have hat' : t.at_ = .deleting q now before changes path d := by
      rw [hat, startWrite, ← hchanges, if_neg hnil]
    obtain ⟨s', sweep, hrun, hlog, hrest⟩ := hrows
      { t with at_ := writeRows q now before path d
                  (some ⟨before, changes.removed, t.visible s.rows⟩) changes.written
               pending := t.pending.merge
                  (FMap.deleteWhere (fun k _ => decide (k ∈ changes.removed)) (t.visible s.rows)) }
      _ rfl (by
        rw [Tx.visible, FMap.patch_merge, ← Tx.visible, FMap.patch_deleteWhere]
        simp)
    exact ⟨s', sweep, Tx.Runs.write (by rw [hat', code]) hrun, hlog, hrest⟩

/-! ### The database's content -/

/-- Rows within the caps. -/
structure WithinCaps (rows : FMap (S × P) Row) : Prop where
  ceiling : rows.size ≤ MAX_TRACKED
  share : ∀ scope, (rows.under scope).size ≤ MAX_PAIRS_PER_IP

/-- No lock outlives its row's window by more than `LOCKOUT`, as `purge_cutoff` counts on. -/
def LockBounded (rows : FMap (S × P) Row) : Prop :=
  ∀ k r, rows.get k = some r → ∀ u, r.lockedUntil = some u → u ≤ r.windowStart + WINDOW + LOCKOUT

omit [DecidableEq S] [DecidableEq P] in
/-- What the purge deletes is stale. -/
theorem LockBounded.isStale_of_expired {rows : FMap (S × P) Row} (h : LockBounded rows) {now : ℤ}
    {k : S × P} {r : Row} (hr : rows.get k = some r) (hexp : expired now k r = true) :
    r.entry.isStale now = true := by
  have hcut : r.windowStart ≤ now - (WINDOW + LOCKOUT) := by
    rw [expired, purgeCutoff] at hexp
    exact of_decide_eq_true hexp
  have hL : 0 < LOCKOUT := by decide
  have hW : 0 < WINDOW := by decide
  have hunlocked : r.entry.lockedAt now = none := by
    rw [Entry.lockedAt, Option.filter_eq_none_iff]
    intro u hu
    have := h k r hr u hu
    simp only [decide_eq_true_eq]
    omega
  have hlate : WINDOW < since now r.entry.windowStart := by
    have hw : r.entry.windowStart = r.windowStart := rfl
    rw [hw, since_of_le (by omega)]
    omega
  rw [Entry.isStale, hunlocked, decide_eq_true hlate]
  simp

/-- The rows still live, and the entries still live, as rows. -/
def liveStored (rows : FMap (S × P) Row) (now : ℤ) : FMap (S × P) Row :=
  rows.filter fun _ r => live now r.entry

def stored (m : FMap (S × P) Entry) : FMap (S × P) Row := m.filterMap fun _ e => some e.row

omit [DecidableEq S] [DecidableEq P] in
@[simp] theorem get_stored (m : FMap (S × P) Entry) (k : S × P) :
    (stored m).get k = (m.get k).map Entry.row := by
  rw [stored, FMap.get_filterMap]
  rcases m.get k with _ | e <;> rfl

theorem live_entry_row (now : ℤ) (e : Entry) : live now e.row.entry = live now e := by
  rw [live, live, Entry.isStale_congr (e := e.row.entry) (f := e) rfl rfl]

omit [DecidableEq S] [DecidableEq P] in
/-- Rows that hold what a table holds, but for stale pairs. -/
theorem liveStored_eq {rows : FMap (S × P) Row} {m : FMap (S × P) Entry} {now : ℤ}
    (hm : ∀ k e, m.get k = some e → live now e = true → rows.get k = some e.row)
    (hr : ∀ k r, rows.get k = some r → live now r.entry = true →
      ∃ e, m.get k = some e ∧ live now e = true) :
    liveStored rows now = stored (m.filter fun _ e => live now e) := by
  refine FMap.ext fun k => Option.ext fun r => ?_
  rw [liveStored, FMap.get_filter_eq_some, get_stored, Option.map_eq_some_iff]
  constructor
  · rintro ⟨hk, hlive⟩
    obtain ⟨e, he, helive⟩ := hr k r hk hlive
    refine ⟨e, FMap.get_filter_eq_some.mpr ⟨he, helive⟩, ?_⟩
    exact Option.some.inj ((hm k e he helive).symm.trans hk)
  · rintro ⟨e, he, rfl⟩
    obtain ⟨he, hlive⟩ := FMap.get_filter_eq_some.mp he
    exact ⟨hm k e he hlive, by rw [live_entry_row]; exact hlive⟩

/-! ### The three outcomes -/

section

variable (lockKey : S → K) {s : Shared (S × P) Row (Answer S P)} (q : Request S P)

omit [DecidableEq S] [DecidableEq P] in
theorem get_entries_eq_some {rows : FMap (S × P) Row} {k : S × P} {e : Entry} :
    (entries rows).get k = some e ↔ ∃ r, rows.get k = some r ∧ r.entry = e := by
  rw [get_entries, Option.map_eq_some_iff]

theorem heldBy_reclaim (t : Table S P) (scope : S) (now : ℤ) :
    (t.reclaimAddress scope now).heldBy scope = ((t.liveRows now).under scope).size := by
  rw [Table.heldBy_eq, Table.rows_reclaimAddress, Table.liveRows]
  refine FMap.size_eq_of_get fun p => ?_
  rw [FMap.get_under, FMap.get_under, FMap.get_filter, FMap.get_filter]
  simp

theorem byIp_loaded (rows : FMap (S × P) Row) :
    (loadAddress q.order rows q.scope).byIp.get q.scope
      = (loadAll q.order rows).byIp.get q.scope := by
  obtain ⟨hc, hrows⟩ := loadAddress_spec q.order rows q.scope
  obtain ⟨hc', hrows'⟩ := loadAll_spec q.order rows
  rw [Table.get_byIp hc, Table.get_byIp hc', hrows, hrows']
  congr 1
  refine FMap.ext fun p => ?_
  rw [FMap.get_under, FMap.get_filter, FMap.get_under]
  simp

/-- A held pair is decided on its address alone. -/
theorem alone_held {e : Entry} (he : (entries s.rows).get q.key = some e) :
    ∃ s' sweep, Tx.Runs (code lockKey) s (Tx.begin (.opened q)) s' ∧
      s'.log = ⟨.decided q s.clock (e.admission s.clock).2 sweep, s'.rows, s.clock⟩ :: s.log ∧
      s'.rows = s.rows.set q.key (some (e.admission s.clock).1.row) := by
  obtain ⟨hc, hrows⟩ := loadAddress_spec q.order s.rows q.scope
  have hheld : (loadAddress q.order s.rows q.scope).get q.scope q.pair = some e := by
    rw [← Table.get_rows, hrows, FMap.get_filter_eq_some]
    exact ⟨he, decide_eq_true rfl⟩
  set loaded := loadAddress q.order s.rows q.scope with hloaded
  set after : Table S P :=
    ⟨Table.put loaded.byIp q.scope q.pair (e.admission s.clock).1, loaded.total⟩ with hafter
  have hput : after.rows = loaded.rows.set q.key (some (e.admission s.clock).1) := rows_put ..
  have hrow : loaded.rows.get q.key = some e := hheld
  obtain ⟨hremoved, hwritten⟩ := between_held q.order hrow hput
  obtain ⟨r, hr, hre⟩ := get_entries_eq_some.mp he
  set t : Tx (S × P) Row (Lock K) (Pc S P) := ⟨startWrite q s.clock loaded after .held
    (e.admission s.clock).2, FMap.empty, [.address (lockKey q.scope)]⟩ with ht
  obtain ⟨s', sweep, hrun, hlog, hout⟩ := runs_startWrite (t := t) rfl (by
        rw [hwritten, hremoved]
        split
        · exact Or.inl rfl
        · refine Or.inr ⟨_, rfl, ?_, List.not_mem_nil⟩
          rw [hheld, Tx.visible_of_empty rfl, hr]
          simp)
  refine ⟨s', sweep, .lock rfl (.clock rfl (.query rfl ?_)), hlog, ?_⟩
  · rw [Tx.visible_of_empty rfl]
    simp only [Table.refuseAtShare, ← hloaded, hheld, Option.isSome_some, if_true,
      Table.admission_held q.order hheld]
    exact hrun
  · rw [hout, hremoved, hwritten, Tx.visible_of_empty rfl]
    have hall : (s.rows.filter fun k _ => decide (k ∉ ([] : List (S × P)))) = s.rows :=
      FMap.ext fun k => by simp
    rw [hall]
    split
    · rename_i hsame
      rw [List.foldl_nil, hsame, ← hre, Row.row_entry, ← hr, FMap.set_get_self]
    · rfl

/-- A refusal at the share deletes the address's stale rows, and nothing else. -/
theorem alone_refused {d : Decision}
    (hd : ((loadAddress q.order s.rows q.scope).refuseAtShare q.scope q.pair s.clock).2 = some d) :
    ∃ s' sweep, Tx.Runs (code lockKey) s (Tx.begin (.opened q)) s' ∧
      s'.log = ⟨.decided q s.clock d sweep, s'.rows, s.clock⟩ :: s.log ∧
      s'.rows = s.rows.filter fun k r => k.1 ≠ q.scope || live s.clock r.entry := by
  obtain ⟨_, hrows⟩ := loadAddress_spec q.order s.rows q.scope
  set loaded := loadAddress q.order s.rows q.scope with hloaded
  have hafter : (loaded.refuseAtShare q.scope q.pair s.clock).1
      = loaded.reclaimAddress q.scope s.clock := by
    rw [Table.refuseAtShare] at hd ⊢
    split
    · rename_i hheld; rw [if_pos hheld] at hd; exact absurd hd (by simp)
    · rfl
  obtain ⟨hwritten, hremoved⟩ := between_reclaim q.order loaded q.scope s.clock
  set t : Tx (S × P) Row (Lock K) (Pc S P) := ⟨startWrite q s.clock loaded
    (loaded.reclaimAddress q.scope s.clock) .share d, FMap.empty,
    [.address (lockKey q.scope)]⟩ with ht
  obtain ⟨s', sweep, hrun, hlog, hout⟩ := runs_startWrite (t := t) rfl (Or.inl hwritten)
  refine ⟨s', sweep, .lock rfl (.clock rfl (.query rfl ?_)), hlog, ?_⟩
  · have hsplit : loaded.refuseAtShare q.scope q.pair s.clock
        = (loaded.reclaimAddress q.scope s.clock, some d) := Prod.ext hafter hd
    rw [Tx.visible_of_empty rfl]
    simp only [← hloaded, hsplit]
    exact hrun
  · rw [hout, hwritten, List.foldl_nil, Tx.visible_of_empty rfl]
    refine FMap.ext fun k => Option.ext fun r => ?_
    rw [FMap.get_filter_eq_some, FMap.get_filter_eq_some]
    refine and_congr_right fun hr => ?_
    rw [decide_eq_true_iff, hremoved, hrows]
    have hget : ∀ e, ((entries s.rows).filter fun k _ => decide (k.1 = q.scope)).get k = some e ↔
        r.entry = e ∧ k.1 = q.scope := fun e => by
      rw [FMap.get_filter_eq_some, get_entries, hr, decide_eq_true_iff]
      simp
    simp only [hget]
    by_cases hk : k.1 = q.scope
    · rcases hstale : r.entry.isStale s.clock with _ | _ <;> simp [hk, live, hstale]
    · simp [hk]

/-- The table a new pair is decided on, once the expired rows are gone. -/
def newPairTable (q : Request S P) (rows : FMap (S × P) Row) (now : ℤ) : Table S P :=
  let left := rows.filter fun k r => !expired now k r
  if MAX_TRACKED ≤ left.size then loadAll q.order left
  else { loadAddress q.order left q.scope with total := left.size }

/-- A new pair is inserted, in the room made by the table it is decided on. -/
theorem alone_new (hnone : (entries s.rows).get q.key = none)
    (hd : ((loadAddress q.order s.rows q.scope).refuseAtShare q.scope q.pair s.clock).2 = none)
    {room : FMap (S × P) Entry}
    (hroom : ∀ k e, room.get k = some e →
      (newPairTable q s.rows s.clock).rows.get k = some e)
    (hbnone : (newPairTable q s.rows s.clock).rows.get q.key = none)
    (hdec : ((newPairTable q s.rows s.clock).admission q.order q.scope q.pair s.clock).2 = .Allow)
    (hrows : ((newPairTable q s.rows s.clock).admission q.order q.scope q.pair s.clock).1.rows
      = room.set q.key (some (Entry.first s.clock))) :
    ∃ s' sweep, Tx.Runs (code lockKey) s (Tx.begin (.opened q)) s' ∧
      s'.log = ⟨.decided q s.clock .Allow sweep, s'.rows, s.clock⟩ :: s.log ∧
      ∀ k, s'.rows.get k = if k = q.key then some (Entry.first s.clock).row
        else (s.rows.get k).filter fun r => !expired s.clock k r &&
          !(((newPairTable q s.rows s.clock).rows.get k).isSome && (room.get k).isNone) := by
  set before := newPairTable q s.rows s.clock with hbefore
  set after := (before.admission q.order q.scope q.pair s.clock).1 with hafter
  obtain ⟨hwritten, hremoved⟩ := between_new q.order hbnone hroom hrows
  set gone : FMap (S × P) (Option Row) :=
    FMap.empty.merge (FMap.deleteWhere (expired s.clock) s.rows) with hgone
  set t : Tx (S × P) Row (Lock K) (Pc S P) := ⟨startWrite q s.clock before after .table .Allow, gone,
    [.table, .address (lockKey q.scope)]⟩ with ht
  have hvis : t.visible s.rows = s.rows.filter fun k r => !expired s.clock k r := by
    rw [Tx.visible, ht, hgone, FMap.empty_merge, FMap.patch_deleteWhere]
  have hsee : ∀ at_ locks, (⟨at_, gone, locks⟩ : Tx (S × P) Row (Lock K) (Pc S P)).visible s.rows
      = s.rows.filter fun k r => !expired s.clock k r := fun _ _ => hvis
  have hkey : (t.visible s.rows).get q.key = none := by
    rw [hvis, FMap.get_filter, Option.map_eq_none_iff.mp ((get_entries _ _).symm.trans hnone)]
    rfl
  have hdecide : decideNewPair q s.clock before = startWrite q s.clock before after .table .Allow := by
    rw [decideNewPair, hafter, ← hdec]
  obtain ⟨s', sweep, hrun, hlog, hout⟩ := runs_startWrite (t := t) rfl (Or.inr ⟨_, hwritten, by
    rw [hkey, ← Table.get_rows, show (q.scope, q.pair) = q.key from rfl, hbnone]; rfl, fun hmem => by
      obtain ⟨⟨e, he⟩, _⟩ := (hremoved _).mp hmem
      exact absurd (hbnone.symm.trans he) (by simp)⟩)
  refine ⟨s', sweep, .lock rfl (.clock rfl (.query rfl ?_)), hlog, fun k => ?_⟩
  · -- nothing held, nothing refused: the table's lock, a clock, the purge and the count
    have hget : (loadAddress q.order s.rows q.scope).get q.scope q.pair = none := by
      rw [← Table.get_rows, (loadAddress_spec q.order s.rows q.scope).2, FMap.get_filter,
        show (q.scope, q.pair) = q.key from rfl, hnone]
      rfl
    have hstep : ((loadAddress q.order s.rows q.scope).refuseAtShare q.scope q.pair s.clock)
        = ((loadAddress q.order s.rows q.scope).reclaimAddress q.scope s.clock, none) := by
      refine Prod.ext ?_ hd
      rw [Table.refuseAtShare, if_neg (by rw [hget]; simp)]
    rw [Tx.visible_of_empty rfl]
    simp only [hstep, Table.get_reclaimAddress_of_none s.clock hget, Option.isSome_none,
      Bool.false_eq_true, if_false]
    refine .lock rfl (.clock rfl (.write rfl ?_))
    rw [Tx.visible_of_empty rfl]
    refine .query rfl ?_
    change Tx.Runs _ _ ⟨if MAX_TRACKED ≤ (Tx.visible ⟨_, gone, _⟩ s.rows).size
      then Pc.loadingAll q s.clock else
      Pc.loadingAddress q s.clock (Tx.visible ⟨_, gone, _⟩ s.rows).size, gone, _⟩ _
    simp only [hsee]
    by_cases hfull : MAX_TRACKED ≤ (s.rows.filter fun k r => !expired s.clock k r).size
    · simp only [if_pos hfull]
      refine .query rfl ?_
      have hb : loadAll q.order (s.rows.filter fun k r => !expired s.clock k r) = before := by
        rw [hbefore, newPairTable]; exact (if_pos hfull).symm
      simp only [hsee, hb, hdecide]
      exact hrun
    · simp only [if_neg hfull]
      refine .query rfl ?_
      have hb : ({ loadAddress q.order (s.rows.filter fun k r => !expired s.clock k r) q.scope with
          total := (s.rows.filter fun k r => !expired s.clock k r).size } : Table S P) = before := by
        rw [hbefore, newPairTable]; exact (if_neg hfull).symm
      simp only [hsee, hb, hdecide]
      exact hrun
  · rw [hout, hwritten, List.foldl_cons, List.foldl_nil, FMap.get_set, hvis]
    split
    · rfl
    · refine Option.ext fun r => ?_
      rw [FMap.get_filter_eq_some, FMap.get_filter_eq_some, Option.filter_eq_some_iff,
        Bool.and_eq_true, and_assoc]
      refine and_congr_right fun _ => and_congr_right fun _ => ?_
      rw [decide_eq_true_iff, hremoved, ← Option.isSome_iff_exists, ← Option.isNone_iff_eq_none,
        Bool.not_eq_true', Bool.and_eq_false_iff]
      cases (before.rows.get k).isSome <;> cases (room.get k).isNone <;> simp

end

/-! ### Against the full table -/

section

variable {rows : FMap (S × P) Row} (q : Request S P) (now : ℤ)

theorem newPairTable_spec :
    (∀ k e, (newPairTable q rows now).rows.get k = some e ↔
      ∃ r, rows.get k = some r ∧ r.entry = e ∧ expired now k r = false ∧
        (MAX_TRACKED ≤ (rows.filter fun k r => !expired now k r).size ∨ k.1 = q.scope)) ∧
    (MAX_TRACKED ≤ (rows.filter fun k r => !expired now k r).size →
      (newPairTable q rows now).Counted) ∧
    ((rows.filter fun k r => !expired now k r).size < MAX_TRACKED →
      (newPairTable q rows now).total < MAX_TRACKED) := by
  set left := rows.filter fun k r => !expired now k r with hleft
  have hget : ∀ k e, (entries left).get k = some e ↔
      ∃ r, rows.get k = some r ∧ r.entry = e ∧ expired now k r = false := fun k e => by
    rw [get_entries_eq_some]
    refine exists_congr fun r => ?_
    rw [hleft, FMap.get_filter_eq_some, Bool.not_eq_true', and_assoc]
    exact and_congr_right fun _ => and_comm
  by_cases hfull : MAX_TRACKED ≤ left.size
  · obtain ⟨hcounted, hrows⟩ := loadAll_spec q.order left
    have heq : newPairTable q rows now = loadAll q.order left := if_pos hfull
    rw [heq, hrows]
    refine ⟨fun k e => ?_, fun _ => hcounted, fun h => absurd h (not_lt.mpr hfull)⟩
    rw [hget]
    simp [hfull]
  · obtain ⟨_, hrows⟩ := loadAddress_spec q.order left q.scope
    have heq : newPairTable q rows now
      = { loadAddress q.order left q.scope with total := left.size } := if_neg hfull
    rw [heq]
    refine ⟨fun k e => ?_, fun h => absurd h hfull, fun h => h⟩
    rw [show (⟨(loadAddress q.order left q.scope).byIp, left.size⟩ : Table S P).rows
      = (loadAddress q.order left q.scope).rows from rfl, hrows, FMap.get_filter_eq_some, hget,
      decide_eq_true_iff]
    constructor
    · rintro ⟨⟨r, hr, he, hexp⟩, hscope⟩
      exact ⟨r, hr, he, hexp, Or.inr hscope⟩
    · rintro ⟨r, hr, he, hexp, hscope⟩
      exact ⟨⟨r, hr, he, hexp⟩, hscope.resolve_left hfull⟩

/-- A new pair within the share of its address, on a table that holds no more of it. -/
theorem share_of_loaded {t : Table S P}
    (hd : ((loadAddress q.order rows q.scope).refuseAtShare q.scope q.pair now).2 = none)
    (hnone : (entries rows).get q.key = none)
    (ht : ∀ k e, t.rows.get k = some e → (entries rows).get k = some e) :
    (t.reclaimAddress q.scope now).heldBy q.scope < MAX_PAIRS_PER_IP := by
  have hloaded := (loadAddress_spec q.order rows q.scope).2
  have hget : (loadAddress q.order rows q.scope).get q.scope q.pair = none := by
    rw [← Table.get_rows, hloaded, FMap.get_filter, show (q.scope, q.pair) = q.key from rfl, hnone]
    rfl
  have hshare : ((loadAddress q.order rows q.scope).reclaimAddress q.scope now).heldBy q.scope
      < MAX_PAIRS_PER_IP := by
    by_contra hle
    rw [Table.refuseAtShare, if_neg (by rw [hget]; simp)] at hd
    simp only [if_pos (not_lt.mp hle)] at hd
    exact absurd hd (by simp)
  rw [heldBy_reclaim] at hshare ⊢
  refine lt_of_le_of_lt (FMap.size_le_of_get fun p hp => ?_) hshare
  obtain ⟨e, he⟩ := Option.isSome_iff_exists.mp hp
  obtain ⟨he, hlive⟩ := Table.get_liveRows.mp he
  have : ((loadAddress q.order rows q.scope).liveRows now).get (q.scope, p) = some e :=
    Table.get_liveRows.mpr ⟨by
      rw [hloaded, FMap.get_filter_eq_some]
      exact ⟨ht _ e he, decide_eq_true rfl⟩, hlive⟩
  rw [FMap.get_under, this]
  rfl

/-- What the full table keeps of the live pairs is what the store keeps of its live rows. -/
theorem live_room (hlocks : LockBounded rows) {k : S × P} {e : Entry} (hlive : live now e = true) :
    (((loadAll q.order rows).reclaimAddress q.scope now).makeRoom q.order now).rows.get k = some e ↔
      ∃ r, rows.get k = some r ∧ r.entry = e ∧
        ¬((∃ f, (newPairTable q rows now).rows.get k = some f) ∧
          (((newPairTable q rows now).reclaimAddress q.scope now).makeRoom q.order now).rows.get k
            = none) := by
  obtain ⟨hget, hcounted, htotal⟩ := newPairTable_spec q now
  obtain ⟨hfcounted, hfrows⟩ := loadAll_spec q.order rows
  set full := loadAll q.order rows
  set before := newPairTable q rows now
  set left := rows.filter fun k r => !expired now k r with hleft
  -- a live row has not expired
  have hkept : ∀ k r, rows.get k = some r → live now r.entry = true → expired now k r = false := by
    intro k r hr hl
    by_contra hexp
    have := hlocks.isStale_of_expired hr (by simpa using hexp)
    simp [live, this] at hl
  have hfull : (full.liveRows now).get k = some e ↔ ∃ r, rows.get k = some r ∧ r.entry = e := by
    rw [Table.get_liveRows, hfrows, get_entries_eq_some]
    exact ⟨fun h => h.1, fun h => ⟨h, hlive⟩⟩
  have hroomF : ((full.reclaimAddress q.scope now).makeRoom q.order now).rows.get k = some e ↔
      (((full.reclaimAddress q.scope now).makeRoom q.order now).liveRows now).get k = some e := by
    rw [Table.get_liveRows]
    exact ⟨fun h => ⟨h, hlive⟩, And.left⟩
  rw [hroomF]
  have hsub : ∀ j f, ((before.reclaimAddress q.scope now).makeRoom q.order now).rows.get j = some f →
      before.rows.get j = some f := fun j f hj => by
    have := get_room q.order _ now hj
    rw [Table.rows_reclaimAddress, FMap.get_filter_eq_some] at this
    exact this.1
  by_cases hmax : MAX_TRACKED ≤ left.size
  · -- every row is loaded: the same live pairs, the same room
    have hlive' : before.liveRows now = full.liveRows now := by
      refine FMap.ext fun j => Option.ext fun f => ?_
      rw [Table.get_liveRows, Table.get_liveRows, hget, hfrows, get_entries_eq_some]
      constructor
      · rintro ⟨⟨r, hr, he, _, _⟩, hl⟩
        exact ⟨⟨r, hr, he⟩, hl⟩
      · rintro ⟨⟨r, hr, rfl⟩, hl⟩
        exact ⟨⟨r, hr, rfl, hkept j r hr hl, Or.inl hmax⟩, hl⟩
    have hroom := Table.liveRows_makeRoom_congr q.order
      (Table.counted_reclaimAddress hfcounted q.scope now)
      (Table.counted_reclaimAddress (hcounted hmax) q.scope now)
      (show _ = _ by rw [Table.liveRows_reclaimAddress, Table.liveRows_reclaimAddress, hlive'])
    rw [hroom, Table.get_liveRows]
    constructor
    · rintro ⟨hr, _⟩
      obtain ⟨r, hr', he, _, _⟩ := (hget k e).mp (hsub k e hr)
      exact ⟨r, hr', he, fun h => by rw [hr] at h; exact absurd h.2 (by simp)⟩
    · rintro ⟨r, hr, rfl, hroom⟩
      have hb : before.rows.get k = some r.entry :=
        (hget k _).mpr ⟨r, hr, rfl, hkept k r hr hlive, Or.inl hmax⟩
      rcases hrk : ((before.reclaimAddress q.scope now).makeRoom q.order now).rows.get k with _ | f
      · exact absurd ⟨⟨_, hb⟩, hrk⟩ hroom
      · obtain rfl := Option.some.inj ((hsub k f hrk).symm.trans hb)
        exact ⟨rfl, hlive⟩
  · -- the address's rows under the total counted: nothing live goes on either side
    have hlt : left.size < MAX_TRACKED := not_le.mp hmax
    have hsize : ((full.reclaimAddress q.scope now).liveRows now).size < MAX_TRACKED := by
      rw [Table.liveRows_reclaimAddress]
      refine lt_of_le_of_lt (FMap.size_le_of_get fun j hj => ?_) hlt
      obtain ⟨f, hf⟩ := Option.isSome_iff_exists.mp hj
      obtain ⟨hf, hl⟩ := Table.get_liveRows.mp hf
      rw [hfrows] at hf
      obtain ⟨r, hr, rfl⟩ := get_entries_eq_some.mp hf
      rw [FMap.get_filter_eq_some.mpr ⟨hr, by rw [hkept j r hr hl]; rfl⟩]
      rfl
    have hroom : (before.reclaimAddress q.scope now).makeRoom q.order now
        = before.reclaimAddress q.scope now := by
      refine if_pos (lt_of_le_of_lt ?_ (htotal hlt))
      rw [Table.reclaimAddress]
      split
      · exact le_refl _
      · exact Nat.sub_le _ _
    rw [Table.liveRows_makeRoom q.order hsize, Table.liveRows_reclaimAddress, hfull, hroom]
    refine exists_congr fun r => and_congr_right fun hr => ?_
    refine ⟨fun he => ⟨he, ?_⟩, And.left⟩
    rintro ⟨⟨f, hf⟩, hnone⟩
    obtain ⟨r', hr', rfl, _, _⟩ := (hget k f).mp hf
    obtain rfl := Option.some.inj (hr.symm.trans hr')
    rw [Table.rows_reclaimAddress, FMap.get_filter, hf] at hnone
    rw [← he] at hlive
    simp [Option.filter, hlive] at hnone

end

/-- CORRECT: an admission run alone decides as the full table does, and leaves its rows, but for
    pairs that are stale; and what the purge deletes is stale. -/
theorem store_decides_like_table (lockKey : S → K) {s : Shared (S × P) Row (Answer S P)}
    (hlocks : LockBounded s.rows) (q : Request S P) :
    (∃ s' sweep, Tx.Runs (code lockKey) s (Tx.begin (.opened q)) s' ∧
      s'.log = ⟨.decided q s.clock
        ((loadAll q.order s.rows).admission q.order q.scope q.pair s.clock).2 sweep,
        s'.rows, s.clock⟩ :: s.log ∧
      liveStored s'.rows s.clock = stored
        (((loadAll q.order s.rows).admission q.order q.scope q.pair s.clock).1.liveRows s.clock)) ∧
    ∀ now k r, s.rows.get k = some r → expired now k r = true → r.entry.isStale now = true := by
  refine ⟨?_, fun now k r hr hexp => hlocks.isStale_of_expired hr hexp⟩
  obtain ⟨hfcounted, hfrows⟩ := loadAll_spec q.order s.rows
  rcases he : (entries s.rows).get q.key with _ | e
  · have hfnone : (loadAll q.order s.rows).get q.scope q.pair = none := by
      rw [← Table.get_rows, hfrows]; exact he
    have hcongr := Table.refuseAtShare_congr (byIp_loaded q s.rows) q.pair s.clock
    rcases hd : ((loadAddress q.order s.rows q.scope).refuseAtShare q.scope q.pair s.clock).2
      with _ | d
    · -- a new pair, inserted in the room made
      obtain ⟨hget, _, _⟩ := newPairTable_spec q s.clock
      have hsub : ∀ k e, (newPairTable q s.rows s.clock).rows.get k = some e →
          (entries s.rows).get k = some e := fun k e hk => by
        obtain ⟨r, hr, hre, _⟩ := (hget k e).mp hk
        exact get_entries_eq_some.mpr ⟨r, hr, hre⟩
      have hbnone : (newPairTable q s.rows s.clock).rows.get q.key = none := by
        rcases hb : (newPairTable q s.rows s.clock).rows.get q.key with _ | e
        · rfl
        · exact absurd (he.symm.trans (hsub _ _ hb)) (by simp)
      have hb := Table.admission_new q.order hbnone (share_of_loaded q s.clock hd he hsub)
      have hf := Table.admission_new q.order hfnone (share_of_loaded q s.clock hd he fun k e hk => by
        rwa [hfrows] at hk)
      have hroom : ∀ k e, (((newPairTable q s.rows s.clock).reclaimAddress q.scope s.clock).makeRoom
          q.order s.clock).rows.get k = some e →
            (newPairTable q s.rows s.clock).rows.get k = some e := fun k e hk => by
        have := get_room q.order _ s.clock hk
        rw [Table.rows_reclaimAddress, FMap.get_filter_eq_some] at this
        exact this.1
      obtain ⟨s', sweep, hrun, hlog, hout⟩ := alone_new lockKey q he hd hroom hbnone
        (congrArg Prod.snd hb) ((congrArg (fun x => x.1.rows) hb).trans (rows_put ..))
      refine ⟨s', sweep, hrun, by rw [hlog, hf], ?_⟩
      rw [hf, Table.liveRows, rows_put]
      have hfirst : live s.clock (Entry.first s.clock) = true := by
        simp [live, Entry.isStale, Entry.lockedAt, Entry.first, since, WINDOW, minute, second]
      refine liveStored_eq (fun k e hk hl => ?_) fun k r hk hl => ?_
      · rw [FMap.get_set] at hk
        rw [hout]
        split
        · rename_i hkey
          rw [if_pos (show k = (q.scope, q.pair) from hkey)] at hk
          rw [Option.some.inj hk]
        · rename_i hkey
          rw [if_neg (show ¬k = (q.scope, q.pair) from hkey)] at hk
          obtain ⟨r, hr, rfl, hkeep⟩ := (live_room q s.clock hlocks hl).mp hk
          have hexp : expired s.clock k r = false := by
            by_contra hexp
            have := hlocks.isStale_of_expired hr (by simpa using hexp)
            simp [live, this] at hl
          rw [hr, Row.row_entry, Option.filter_eq_some_iff]
          refine ⟨rfl, ?_⟩
          rw [hexp, Bool.not_false, Bool.true_and, Bool.not_eq_true', Bool.and_eq_false_iff]
          by_contra hboth
          push Not at hboth
          exact hkeep ⟨Option.ne_none_iff_exists'.mp (by simpa using hboth.1),
            Option.isNone_iff_eq_none.mp (by simpa using hboth.2)⟩
      · rw [hout] at hk
        rw [FMap.get_set]
        by_cases hkey : k = q.key
        · rw [if_pos (show k = (q.scope, q.pair) from hkey)]
          exact ⟨_, rfl, hfirst⟩
        · rw [if_neg hkey, Option.filter_eq_some_iff] at hk
          obtain ⟨hr, hkeep⟩ := hk
          rw [if_neg (show ¬k = (q.scope, q.pair) from hkey)]
          refine ⟨r.entry, (live_room q s.clock hlocks hl).mpr ⟨r, hr, rfl, fun hgone => ?_⟩, hl⟩
          obtain ⟨⟨f, hf⟩, hnone⟩ := hgone
          simp [hf, hnone] at hkeep
    · -- refused at the share
      have hfd : ((loadAll q.order s.rows).refuseAtShare q.scope q.pair s.clock).2 = some d := by
        rw [← hcongr]; exact hd
      have hadm : (loadAll q.order s.rows).admission q.order q.scope q.pair s.clock
          = ((loadAll q.order s.rows).reclaimAddress q.scope s.clock, d) := by
        have hsplit : (loadAll q.order s.rows).refuseAtShare q.scope q.pair s.clock
            = ((loadAll q.order s.rows).reclaimAddress q.scope s.clock, some d) := by
          refine Prod.ext ?_ hfd
          rw [Table.refuseAtShare, if_neg (by rw [hfnone]; simp)]
        rw [Table.admission, hsplit]
      obtain ⟨s', sweep, hrun, hlog, hout⟩ := alone_refused lockKey q hd
      refine ⟨s', sweep, hrun, by rw [hlog, hadm], ?_⟩
      rw [hadm, Table.liveRows_reclaimAddress, Table.liveRows, hfrows]
      refine liveStored_eq (fun k e hk hl => ?_) fun k r hk hl => ?_
      · obtain ⟨r, hr, rfl⟩ := get_entries_eq_some.mp hk
        rw [hout, Row.row_entry, FMap.get_filter_eq_some]
        exact ⟨hr, by rw [hl, Bool.or_true]⟩
      · rw [hout, FMap.get_filter_eq_some] at hk
        exact ⟨r.entry, get_entries_eq_some.mpr ⟨r, hk.1, rfl⟩, hl⟩
  · -- a held pair
    have hfheld : (loadAll q.order s.rows).get q.scope q.pair = some e := by
      rw [← Table.get_rows, hfrows]; exact he
    obtain ⟨s', sweep, hrun, hlog, hout⟩ := alone_held lockKey q he
    have hf := Table.admission_held q.order hfheld s.clock
    refine ⟨s', sweep, hrun, by rw [hlog, hf], ?_⟩
    rw [hf, Table.liveRows, rows_put]
    refine liveStored_eq (fun k f hk hl => ?_) fun k r hk hl => ?_
    · rw [FMap.get_set] at hk
      rw [hout, FMap.get_set]
      split
      · rename_i hkey
        rw [if_pos (show k = (q.scope, q.pair) from hkey)] at hk
        rw [Option.some.inj hk]
      · rename_i hkey
        rw [if_neg (show ¬k = (q.scope, q.pair) from hkey)] at hk
        change (loadAll q.order s.rows).rows.get k = some f at hk
        rw [hfrows] at hk
        obtain ⟨r, hr, rfl⟩ := get_entries_eq_some.mp hk
        rw [hr, Row.row_entry]
    · rw [hout, FMap.get_set] at hk
      rw [FMap.get_set]
      by_cases hkey : k = q.key
      · rw [if_pos hkey] at hk
        obtain rfl := Option.some.inj hk
        rw [if_pos (show k = (q.scope, q.pair) from hkey)]
        exact ⟨_, rfl, by rw [← live_entry_row]; exact hl⟩
      · rw [if_neg hkey] at hk
        rw [if_neg (show ¬k = (q.scope, q.pair) from hkey)]
        refine ⟨r.entry, ?_, hl⟩
        show (loadAll q.order s.rows).rows.get k = _
        rw [hfrows]
        exact get_entries_eq_some.mpr ⟨r, hk, rfl⟩

/-- One pair, attempted once at the epoch. -/
def onePair : FMap (ℕ × ℕ) Row := FMap.one (0, 0) (Entry.first 0).row

theorem lockBounded_onePair : LockBounded onePair := by
  intro k r hr u hu
  rw [onePair, FMap.get_one] at hr
  split at hr
  · obtain rfl := Option.some.inj hr
    exact absurd hu (by simp [Entry.first])
  · exact absurd hr (by simp)

/-- The pair tried again at the epoch is decided on its own row. -/
theorem store_decides_like_table_onePair :
    ∃ s', Tx.Runs (code id) ⟨onePair, 0, []⟩
      (Tx.begin (.opened ⟨0, 0, Listing.any _⟩) : Tx (ℕ × ℕ) Row (Lock ℕ) (Pc ℕ ℕ)) s' ∧
      s'.log.length = 1 := by
  obtain ⟨⟨s', sweep, hrun, hlog, _⟩, _⟩ := store_decides_like_table id
    (s := ⟨onePair, 0, []⟩) lockBounded_onePair ⟨0, 0, Listing.any _⟩
  exact ⟨s', hrun, by rw [hlog]; rfl⟩

/-- A lock that outlives its window by hours, which no write of the store makes, is deleted while it
    still holds. -/
theorem purge_deletes_long_lock :
    ¬∀ rows : FMap (ℕ × ℕ) Row, WithinCaps rows → ∀ now k r, rows.get k = some r →
      expired now k r = true → r.entry.isStale now = true := by
  intro h
  have hcaps : WithinCaps (FMap.one ((0, 0) : ℕ × ℕ) (⟨10, 0, some (2 * hour)⟩ : Row)) :=
    ⟨by decide, fun scope => (FMap.size_under_le _ scope).trans (by decide)⟩
  have := h _ hcaps hour (0, 0) ⟨10, 0, some (2 * hour)⟩ rfl (by decide)
  exact absurd this (by decide)

end Home.Throttle
