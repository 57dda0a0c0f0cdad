import Mathlib.Data.Finset.Max
import ManageOurHome.Lib.ReadCommitted
import ManageOurHome.Time

/-! @src apps/api/src/csp_report_throttle.rs | layer:model | family:rate-limit

    The limit on CSP reports: a fixed window per address, its row in Postgres. One request is one
    transaction, `code`: under the lock of its address it decides on the address's own row, updated
    in place; an address the table does not hold, or no longer, goes on under the table's lock, and
    is inserted while there is room.

        lock address ─▶ clock ─▶ own row? ──yes──▶ admit ─▶ UPDATE ─▶ commit
                                    │ no                      │ row gone
                                    ▼                         ▼
                               lock table ─▶ clock ─▶ count ─▶ (full? purge, refuse) ─▶ INSERT

    `S` is the type of the addresses' pseudonyms; `lockKey` is the advisory lock's key, the first
    four bytes of a pseudonym, which two addresses may share. -/

namespace Home.ReportThrottle

open FiniteMap ReadCommitted

/-- Requests admitted per address within one `WINDOW`. -/
def MAX_REPORTS : ℕ := 100

/-- How long requests accumulate. -/
def WINDOW : ℤ := 15 * minute

/-- Ceiling on tracked addresses. -/
def MAX_TRACKED : ℕ := 10000

inductive Decision where
  | Allow
  | Refused (retryAfter : ℤ)
  deriving DecidableEq, Repr

/-- One address's window. -/
structure Entry where
  requests : ℕ
  windowStart : ℤ
  deriving DecidableEq, Repr

/-- The columns of `csp_report_throttle` beside its key. -/
structure Row where
  requests : ℤ
  windowStart : ℤ
  deriving DecidableEq, Repr

/-- `u32::try_from(requests).unwrap_or(0)`. -/
def Row.entry (r : Row) : Entry := ⟨r.requests.toNat, r.windowStart⟩

/-- `i32::try_from(requests).unwrap_or(i32::MAX)`. -/
def Entry.row (e : Entry) : Row :=
  ⟨if e.requests < 2 ^ 31 then e.requests else 2 ^ 31 - 1, e.windowStart⟩

namespace Entry

/-- The entry of an address admitted for the first time: its first request, already counted. -/
def first (now : ℤ) : Entry := ⟨1, now⟩

def endsAt (e : Entry) : ℤ := e.windowStart + WINDOW

/-- Its window is over: nothing left to remember. -/
def isStale (e : Entry) (now : ℤ) : Bool := e.endsAt ≤ now

/-- A request from an address the table holds (`Entry::admit`). -/
def admission (e : Entry) (now : ℤ) : Entry × Decision :=
  let e := if e.isStale now then ⟨0, now⟩ else e
  if MAX_REPORTS ≤ e.requests then (e, .Refused (since e.endsAt now))
  else ({ e with requests := e.requests + 1 }, .Allow)

end Entry

/-- A request from an address the table does not hold. -/
def refuseNewcomer (held : ℕ) (earliest : Option ℤ) (now : ℤ) : Option Decision :=
  if MAX_TRACKED ≤ held then
    some (.Refused (match earliest with
      | none => 0
      | some start => since (start + WINDOW) now))
  else none

/-- `purge_expired`'s `WHERE`: the rows whose window is over. -/
def expired {S : Type*} (now : ℤ) (_ : S) (r : Row) : Bool := r.windowStart ≤ now - WINDOW

/-- `min(window_start)`. -/
def earliest {S : Type*} (rows : FMap S Row) : Option ℤ :=
  let starts := rows.values fun _ r => r.windowStart
  if h : starts.Nonempty then some (starts.min' h) else none

inductive Lock (K : Type*) where
  | address (key : K)
  | table

/-- What a transaction ended with. A decision comes with the clock reading it was taken on, and one
    taken on the address's own row with the entry it left there. -/
inductive Answer (S : Type*) where
  | own (scope : S) (now : ℤ) (entry : Entry) (decision : Decision)
  | newcomer (scope : S) (now : ℤ) (decision : Decision)
  | purged

/-- Where a transaction is, with the variables it holds there. -/
inductive Pc (S : Type*) where
  | opened (scope : S)
  | locked (scope : S)
  | timed (scope : S) (now : ℤ)
  | held (scope : S) (now : ℤ) (loaded : Entry)
  | newcomer (scope : S)
  | tableLocked (scope : S)
  | counting (scope : S) (now : ℤ)
  | full (scope : S) (now : ℤ)
  | swept (scope : S) (now : ℤ)
  | insert (scope : S) (now : ℤ)
  | done (answer : Answer S)
  | failed
  | purge
  | purging (now : ℤ)

variable {S K : Type*} [DecidableEq S]

/-- `ReportThrottle::admit`, statement by statement, and a run of `purge_expired`. -/
def code (lockKey : S → K) : Pc S → Stmt S Row (Lock K) (Answer S) (Pc S)
  | .opened scope => .lock (.address (lockKey scope)) (.locked scope)
  | .locked scope => .clock (.timed scope)
  | .timed scope now => .query fun rows =>
      match rows.get scope with
      | some row => .held scope now row.entry
      | none => .newcomer scope
  | .held scope now loaded =>
      let (entry, decision) := loaded.admission now
      if entry = loaded then .commit (.own scope now entry decision)
      else .write (FMap.updateAt scope entry.row) fun rows =>
        if (rows.get scope).isSome then .done (.own scope now entry decision)
        else .newcomer scope
  | .newcomer scope => .lock .table (.tableLocked scope)
  | .tableLocked scope => .clock (.counting scope)
  | .counting scope now => .query fun rows =>
      if MAX_TRACKED ≤ rows.size then .full scope now else .insert scope now
  | .full scope now => .write (FMap.deleteWhere (expired now)) fun _ => .swept scope now
  | .swept scope now => .query fun rows =>
      match refuseNewcomer rows.size (earliest rows) now with
      | some refused => .done (.newcomer scope now refused)
      | none => .insert scope now
  | .insert scope now => .write (FMap.insertAt scope (Entry.first now).row) fun rows =>
      if (rows.get scope).isSome then .failed else .done (.newcomer scope now .Allow)
  | .done answer => .commit answer
  | .failed => .rollback
  | .purge => .clock .purging
  | .purging now => .write (FMap.deleteWhere (expired now)) fun _ => .done .purged

/-- A request of any address, or a run of the purge. -/
inductive Starts : Pc S → Prop where
  | request (scope : S) : Starts (.opened scope)
  | purge : Starts .purge

omit [DecidableEq S] in
theorem expired_iff {now : ℤ} {k : S} {r : Row} :
    expired now k r = true ↔ r.windowStart + WINDOW ≤ now := by
  rw [expired, decide_eq_true_iff]
  omega

/-- What an admission on a held row does: a window that is over starts again; a full one refuses
    until it ends; another counts the request. -/
theorem Entry.admission_cases (e : Entry) (now : ℤ) :
    (e.endsAt ≤ now ∧ e.admission now = (Entry.first now, .Allow)) ∨
    (now < e.endsAt ∧ MAX_REPORTS ≤ e.requests ∧
      e.admission now = (e, .Refused (e.endsAt - now))) ∨
    (now < e.endsAt ∧ e.requests < MAX_REPORTS ∧
      e.admission now = (⟨e.requests + 1, e.windowStart⟩, .Allow)) := by
  rcases le_or_gt e.endsAt now with hstale | hlive
  · refine Or.inl ⟨hstale, ?_⟩
    simp [admission, isStale, hstale, MAX_REPORTS, first]
  · have hfresh : ¬ e.endsAt ≤ now := not_le.mpr hlive
    rcases le_or_gt MAX_REPORTS e.requests with hfull | hroom
    · refine Or.inr (Or.inl ⟨hlive, hfull, ?_⟩)
      simp [admission, isStale, hfresh, hfull, since_of_le hlive.le]
    · refine Or.inr (Or.inr ⟨hlive, hroom, ?_⟩)
      simp [admission, isStale, hfresh, not_le.mpr hroom]

/-- A row stores its entry, as long as the count fits. -/
theorem Entry.entry_row {e : Entry} (h : e.requests ≤ MAX_REPORTS) : e.row.entry = e := by
  have hlt : e.requests < 2 ^ 31 := lt_of_le_of_lt h (by decide)
  simp only [Entry.row, Row.entry, if_pos hlt, Int.toNat_natCast]

@[simp] theorem Entry.windowStart_row (e : Entry) : e.row.windowStart = e.windowStart := rfl

omit [DecidableEq S] in
theorem earliest_spec {rows : FMap S Row} {start : ℤ} (h : earliest rows = some start) :
    (∃ k r, rows.get k = some r ∧ r.windowStart = start) ∧
      ∀ k r, rows.get k = some r → start ≤ r.windowStart := by
  simp only [earliest] at h
  split at h
  · rename_i hne
    obtain rfl := Option.some.inj h
    refine ⟨FMap.mem_values.mp (Finset.min'_mem _ hne), fun k r hr => ?_⟩
    exact Finset.min'_le _ _ (FMap.mem_values.mpr ⟨k, r, hr, rfl⟩)
  · exact absurd h (by simp)

omit [DecidableEq S] in
theorem earliest_eq_none {rows : FMap S Row} (h : earliest rows = none) : rows.size = 0 := by
  simp only [earliest] at h
  split at h
  · exact absurd h (by simp)
  · rename_i hne
    refine FMap.size_eq_zero.mpr fun k => ?_
    rcases hk : rows.get k with _ | r
    · rfl
    · exact absurd ⟨_, FMap.mem_values.mpr ⟨k, r, hk, rfl⟩⟩ hne

omit [DecidableEq S] in
/-- A newcomer is refused on a full table of live rows, until the first of them ends. -/
theorem refuseNewcomer_spec {rows : FMap S Row} {now : ℤ} {d : Decision}
    (hlive : ∀ k r, rows.get k = some r → now < r.windowStart + WINDOW)
    (h : refuseNewcomer rows.size (earliest rows) now = some d) :
    ∃ retry, d = .Refused retry ∧ 0 < retry ∧ MAX_TRACKED ≤ rows.size ∧
      (∃ k r, rows.get k = some r ∧ r.windowStart + WINDOW = now + retry) ∧
      ∀ k r, rows.get k = some r → now + retry ≤ r.windowStart + WINDOW := by
  unfold refuseNewcomer at h
  split at h
  · rename_i hfull
    rcases he : earliest rows with _ | start
    · have := earliest_eq_none he
      have : MAX_TRACKED = 10000 := rfl
      omega
    · obtain ⟨⟨k, r, hk, rfl⟩, hmin⟩ := earliest_spec he
      have hkl := hlive k r hk
      rw [he] at h
      simp only [since_of_le hkl.le, Option.some.injEq] at h
      refine ⟨_, h.symm, by omega, hfull, ⟨k, r, hk, by omega⟩, fun j x hj => ?_⟩
      have := hmin j x hj
      omega
  · exact absurd h (by simp)

end Home.ReportThrottle
