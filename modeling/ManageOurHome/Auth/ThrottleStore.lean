import ManageOurHome.Auth.ThrottleBounds
import ManageOurHome.Lib.ReadCommitted

/-! @src apps/api/src/auth/throttle.rs | layer:model | family:rate-limit

    The login throttle's store. An admission is one transaction, `code`: it loads its address's
    rows, asks `Table`, and writes back what changed. A held pair stops there; a new pair goes on
    under the table's lock, purges, counts, and loads every row when the table is full.

        lock address ─▶ clock ─▶ load address ─▶ at share? ──yes──▶ write ─▶ commit
                                    │ no
                                    ▼
                                  held? ──yes──▶ admit ─▶ write ─▶ commit
                                    │ no           │ row gone
                                    ▼              ▼
            lock table ─▶ clock ─▶ purge ─▶ count ─▶ load ─▶ admit ─▶ write ─▶ commit

    `S` and `P` are the pseudonyms of the addresses and of the pairs; `lockKey` is the first four
    bytes of an address's, which two addresses may share. -/

namespace Home.Throttle

open FiniteMap ReadCommitted

/-- The columns of `login_throttle` beside its key: `attempts INTEGER CHECK (attempts >= 0)`. -/
structure Row where
  attempts : Fin (2 ^ 31)
  windowStart : ℤ
  lockedUntil : Option ℤ
  deriving DecidableEq, Repr

/-- `entry_from_row`. -/
def Row.entry (r : Row) : Entry := ⟨r.attempts, r.windowStart, r.lockedUntil⟩

/-- The columns `write` binds: `i32::try_from(attempts).unwrap_or(i32::MAX)`. -/
def Entry.row (e : Entry) : Row where
  attempts := if h : e.attempts < 2 ^ 31 then ⟨e.attempts, h⟩ else ⟨2 ^ 31 - 1, by decide⟩
  windowStart := e.windowStart
  lockedUntil := e.lockedUntil

/-- What one admission changed in the rows it was handed. -/
structure Changes (A E : Type*) where
  removed : List (A × E)
  written : List ((A × E) × Entry)

inductive Lock (K : Type*) where
  | address (key : K)
  | table

/-- A key to admit, and the order this admission's queries and maps enumerate in. -/
structure Request (S P : Type*) where
  scope : S
  pair : P
  order : Listing (S × P)

def Request.key {S P : Type*} (q : Request S P) : S × P := (q.scope, q.pair)

/-- Which of the three calls of `write` this is: a refusal at the share, a held pair, or a new pair
    under the table's lock. -/
inductive Path where
  | share
  | held
  | table
  deriving DecidableEq

/-- A `DELETE` by key: the table its keys were chosen on, the keys, and the rows it ran on. Kept for
    the statements about it, the source holds no such variable. -/
structure Sweep (S P : Type*) where
  before : Table S P
  removed : List (S × P)
  seen : FMap (S × P) Row

/-- What a transaction ended with. A decision comes with the clock reading it was taken on. -/
inductive Answer (S P : Type*) where
  | decided (q : Request S P) (now : ℤ) (decision : Decision) (sweep : Option (Sweep S P))
  | cleared (scope : S) (pair : P)
  | purged

/-- Where a transaction is, with the variables it holds there. -/
inductive Pc (S P : Type*) where
  | opened (q : Request S P)
  | locked (q : Request S P)
  | timed (q : Request S P) (now : ℤ)
  | deleting (q : Request S P) (now : ℤ) (before : Table S P) (changes : Changes S P) (path : Path)
      (decision : Decision)
  | writing (q : Request S P) (now : ℤ) (before : Table S P) (key : S × P) (entry : Entry)
      (rest : List ((S × P) × Entry)) (path : Path) (decision : Decision)
      (sweep : Option (Sweep S P))
  | newPair (q : Request S P)
  | tableLocked (q : Request S P)
  | purging (q : Request S P) (now : ℤ)
  | counting (q : Request S P) (now : ℤ)
  | loadingAll (q : Request S P) (now : ℤ)
  | loadingAddress (q : Request S P) (now : ℤ) (total : ℕ)
  | done (answer : Answer S P)
  | failed
  | succeeded (scope : S) (pair : P)
  | clearing (scope : S) (pair : P)
  | purge
  | purgeRun (now : ℤ)

/-- `purge_expired`'s `WHERE`. -/
def expired {κ : Type*} (now : ℤ) (_ : κ) (r : Row) : Bool := r.windowStart ≤ purgeCutoff now

variable {S P K : Type*} [DecidableEq S] [DecidableEq P]

/-- `Changes::between`. -/
def Changes.between (order : Listing (S × P)) (before after : Table S P) : Changes S P where
  removed := (order.list before.rows.keys).filter fun k => (after.get k.1 k.2).isNone
  written := (order.list after.rows.keys).filterMap fun k =>
    (after.get k.1 k.2).bind fun e => if before.get k.1 k.2 = some e then none else some (k, e)

/-- What a `SELECT` answers, in its order. -/
def selected (order : Listing (S × P)) (rows : FMap (S × P) Row) : List ((S × P) × Row) :=
  (order.list rows.keys).filterMap fun k => (rows.get k).map (k, ·)

def Table.loadRows (t : Table S P) (rows : List ((S × P) × Row)) : Table S P :=
  rows.foldl (fun t kr => t.load kr.1.1 kr.1.2 kr.2.entry) t

/-- `load_address`, into the empty table. -/
def loadAddress (order : Listing (S × P)) (rows : FMap (S × P) Row) (scope : S) : Table S P :=
  Table.default.loadRows (selected order (rows.filter fun k _ => k.1 = scope))

/-- `load_all`, into the empty table. -/
def loadAll (order : Listing (S × P)) (rows : FMap (S × P) Row) : Table S P :=
  Table.default.loadRows (selected order rows)

/-- The rest of `write`, once its deletion is made. `write`'s answer matters to a held pair alone,
    and is `true` here: the loop ended. -/
def writeRows (q : Request S P) (now : ℤ) (before : Table S P) (path : Path) (decision : Decision)
    (sweep : Option (Sweep S P)) : List ((S × P) × Entry) → Pc S P
  | [] => .done (.decided q now decision sweep)
  | (key, entry) :: rest => .writing q now before key entry rest path decision sweep

/-- `write(&mut tx, &before, Changes::between(&before, &after))`. -/
def startWrite (q : Request S P) (now : ℤ) (before after : Table S P) (path : Path)
    (decision : Decision) : Pc S P :=
  let changes := Changes.between q.order before after
  if changes.removed = [] then writeRows q now before path decision none changes.written
  else .deleting q now before changes path decision

/-- The end of an admission under the table's lock, on the rows it loaded. -/
def decideNewPair (q : Request S P) (now : ℤ) (before : Table S P) : Pc S P :=
  let (table, decision) := before.admission q.order q.scope q.pair now
  startWrite q now before table .table decision

/-- `LoginThrottle::admit` and `record_success`, statement by statement, and a run of
    `purge_expired`. -/
def code (lockKey : S → K) : Pc S P → Stmt (S × P) Row (Lock K) (Answer S P) (Pc S P)
  | .opened q => .lock (.address (lockKey q.scope)) (.locked q)
  | .locked q => .clock (.timed q)
  | .timed q now => .query fun rows =>
      let loaded := loadAddress q.order rows q.scope
      match loaded.refuseAtShare q.scope q.pair now with
      | (table, some refused) => startWrite q now loaded table .share refused
      | (table, none) =>
        if (table.get q.scope q.pair).isSome then
          let (table, decision) := table.admission q.order q.scope q.pair now
          startWrite q now loaded table .held decision
        else .newPair q
  | .deleting q now before changes path decision =>
      .write (FMap.deleteWhere fun k _ => k ∈ changes.removed) fun rows =>
        writeRows q now before path decision (some ⟨before, changes.removed, rows⟩) changes.written
  | .writing q now before key entry rest path decision sweep =>
      if (before.get key.1 key.2).isSome then
        .write (FMap.updateAt key entry.row) fun rows =>
          if (rows.get key).isSome then writeRows q now before path decision sweep rest
          -- `write` answers `false`, which only a held pair looks at
          else if path = .held then .newPair q else .done (.decided q now decision sweep)
      else
        .write (FMap.insertAt key entry.row) fun rows =>
          if (rows.get key).isSome then .failed else writeRows q now before path decision sweep rest
  | .newPair q => .lock .table (.tableLocked q)
  | .tableLocked q => .clock (.purging q)
  | .purging q now => .write (FMap.deleteWhere (expired now)) fun _ => .counting q now
  | .counting q now => .query fun rows =>
      if MAX_TRACKED ≤ rows.size then .loadingAll q now else .loadingAddress q now rows.size
  | .loadingAll q now => .query fun rows => decideNewPair q now (loadAll q.order rows)
  | .loadingAddress q now total => .query fun rows =>
      decideNewPair q now { loadAddress q.order rows q.scope with total := total }
  | .done answer => .commit answer
  | .failed => .rollback
  | .succeeded scope pair => .lock (.address (lockKey scope)) (.clearing scope pair)
  | .clearing scope pair =>
      .write (FMap.deleteWhere fun k _ => k = (scope, pair)) fun _ => .done (.cleared scope pair)
  | .purge => .clock .purgeRun
  | .purgeRun now => .write (FMap.deleteWhere (expired now)) fun _ => .done .purged

/-- An admission or a success of any pair, or a run of the purge. -/
inductive Starts : Pc S P → Prop where
  | admission (q : Request S P) : Starts (.opened q)
  | success (scope : S) (pair : P) : Starts (.succeeded scope pair)
  | purge : Starts .purge

/-! ### Rows and entries -/

/-- The rows as the entries they are read as. -/
def entries (rows : FMap (S × P) Row) : FMap (S × P) Entry :=
  rows.filterMap fun _ r => some r.entry

omit [DecidableEq S] [DecidableEq P] in
@[simp] theorem get_entries (rows : FMap (S × P) Row) (k : S × P) :
    (entries rows).get k = (rows.get k).map Row.entry := by
  rw [entries, FMap.get_filterMap]
  rcases rows.get k with _ | r <;> rfl

omit [DecidableEq S] [DecidableEq P] in
theorem size_entries (rows : FMap (S × P) Row) : (entries rows).size = rows.size :=
  FMap.size_eq_of_get fun k => by rw [get_entries, Option.isSome_map]

/-- A row is written back as it was read. -/
@[simp] theorem Row.row_entry (r : Row) : r.entry.row = r := by
  obtain ⟨⟨n, hn⟩, ws, lu⟩ := r
  have hlt : (Row.entry ⟨⟨n, hn⟩, ws, lu⟩).attempts < 2 ^ 31 := hn
  rw [Entry.row, dif_pos hlt]
  rfl

/-- An entry is read back as it was written, as long as its count fits. -/
theorem Entry.entry_row {e : Entry} (h : e.attempts < 2 ^ 31) : e.row.entry = e := by
  simp only [Row.entry, Entry.row, dif_pos h]

theorem Entry.attempts_row {e : Entry} (h : e.attempts < 2 ^ 31) :
    e.row.attempts.val = e.attempts := by
  simp only [Entry.row, dif_pos h]

@[simp] theorem Entry.windowStart_row (e : Entry) : e.row.windowStart = e.windowStart := rfl

@[simp] theorem Entry.lockedUntil_row (e : Entry) : e.row.lockedUntil = e.lockedUntil := rfl

/-- Staleness only looks at the dates, which a row keeps. -/
theorem Entry.isStale_congr {e f : Entry} (hw : e.windowStart = f.windowStart)
    (hl : e.lockedUntil = f.lockedUntil) (now : ℤ) : e.isStale now = f.isStale now := by
  simp only [Entry.isStale, Entry.lockedAt, hw, hl]

/-! ### What is loaded -/

theorem Table.loadRows_spec {f : S × P → Option Entry} :
    ∀ {l : List ((S × P) × Row)} {t : Table S P}, t.Counted →
      (∀ kr ∈ l, f kr.1 = some kr.2.entry) →
      (t.loadRows l).Counted ∧
        ∀ k, (t.loadRows l).rows.get k = if k ∈ l.map Prod.fst then f k else t.rows.get k := by
  intro l
  induction l with
  | nil => intro t ht _; exact ⟨ht, fun k => by simp [loadRows]⟩
  | cons kr l ih =>
    intro t ht hf
    obtain ⟨hcounted, hget⟩ := ih (counted_load ht kr.1.1 kr.1.2 kr.2.entry)
      fun x hx => hf x (List.mem_cons_of_mem _ hx)
    refine ⟨hcounted, fun k => (hget k).trans ?_⟩
    rw [rows_load, FMap.get_set]
    by_cases hk : k = kr.1
    · have hfk : f k = some kr.2.entry := hk ▸ hf kr List.mem_cons_self
      have hmem : k ∈ (kr :: l).map Prod.fst := by rw [hk]; exact List.mem_cons_self
      rw [if_pos (show k = (kr.1.1, kr.1.2) from hk), ← hfk, ite_self, if_pos hmem]
    · have hmem : k ∈ (kr :: l).map Prod.fst ↔ k ∈ l.map Prod.fst := by
        rw [List.map_cons, List.mem_cons, or_iff_right hk]
      rw [if_neg (show ¬k = (kr.1.1, kr.1.2) from hk)]
      simp only [hmem]

omit [DecidableEq S] [DecidableEq P] in
theorem mem_selected {order : Listing (S × P)} {rows : FMap (S × P) Row} {kr : (S × P) × Row} :
    kr ∈ selected order rows ↔ rows.get kr.1 = some kr.2 := by
  simp only [selected, List.mem_filterMap, order.mem_list, Option.map_eq_some_iff]
  constructor
  · rintro ⟨k, _, r, hr, rfl⟩; exact hr
  · intro h; exact ⟨kr.1, FMap.mem_keys_of_get h, kr.2, h, rfl⟩

/-- Loading rows gives the table of their entries, whatever order they come in. -/
theorem loadAll_spec (order : Listing (S × P)) (rows : FMap (S × P) Row) :
    (loadAll order rows).Counted ∧ (loadAll order rows).rows = entries rows := by
  obtain ⟨hcounted, hget⟩ := Table.loadRows_spec (f := (entries rows).get)
    (l := selected order rows) Table.counted_default (fun kr hkr => by
      rw [get_entries, mem_selected.mp hkr]; rfl)
  refine ⟨hcounted, FMap.ext fun k => (hget k).trans ?_⟩
  split
  · rfl
  · rename_i hk
    rw [get_entries]
    rcases hr : rows.get k with _ | r
    · rfl
    · exact absurd (List.mem_map.mpr ⟨(k, r), mem_selected.mpr hr, rfl⟩) hk

theorem loadAddress_spec (order : Listing (S × P)) (rows : FMap (S × P) Row) (scope : S) :
    (loadAddress order rows scope).Counted ∧
      (loadAddress order rows scope).rows = (entries rows).filter fun k _ => k.1 = scope := by
  obtain ⟨hcounted, hrows⟩ := loadAll_spec order (rows.filter fun k _ => k.1 = scope)
  refine ⟨hcounted, hrows.trans (FMap.ext fun k => ?_)⟩
  rw [get_entries, FMap.get_filter, FMap.get_filter, get_entries]
  rcases rows.get k with _ | r
  · rfl
  · by_cases hk : k.1 = scope <;> simp [Option.filter, hk]

end Home.Throttle
