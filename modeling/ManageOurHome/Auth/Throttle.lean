import Mathlib
import ManageOurHome.Lib.FMap
import ManageOurHome.Time

/-! @src apps/api/src/auth/throttle.rs | layer:model | family:rate-limit

    The login throttle's decision. Attempts are counted per (address, email) pair, pairs are grouped
    by address so that an address's share is one lookup away, and a cached total says when the table
    is full. `Table.admission` (`Table::admit`) is the whole decision: a held pair is checked and
    counted in place; a new pair is refused at its address's share, or makes room and starts
    counting. The two halves of the key are type variables, as in the source: the decision only
    compares them.

        pair held ──yes──▶ locked? ──yes──▶ Locked
            │ no              │ no
            ▼                 ▼
        share full? ──▶    count, lock at MAX_FAILURES ──▶ Allow
            │ no              ▲
            ▼                 │
        full table? evict ──▶ insert fresh -/

namespace Home.Throttle

open FiniteMap

/-- Attempts admitted within `WINDOW` on one pair before it is locked. -/
def MAX_FAILURES : ℕ := 10

/-- How long attempts accumulate. -/
def WINDOW : ℤ := 15 * minute

/-- How long a pair stays locked. -/
def LOCKOUT : ℤ := 15 * minute

/-- Ceiling on tracked pairs. -/
def MAX_TRACKED : ℕ := 10000

/-- Pairs one address may hold at once. -/
def MAX_PAIRS_PER_IP : ℕ := 50

inductive Decision where
  | Allow
  | Locked (retryAfter : ℤ)
  deriving DecidableEq, Repr

/-- Rows whose window started at or before this instant are stale whatever happened in them. -/
def purgeCutoff (now : ℤ) : ℤ := now - (WINDOW + LOCKOUT)

structure Entry where
  attempts : ℕ
  windowStart : ℤ
  lockedUntil : Option ℤ
  deriving DecidableEq, Repr

namespace Entry

def fresh (now : ℤ) : Entry := ⟨0, now, none⟩

def lockedAt (e : Entry) (now : ℤ) : Option ℤ := e.lockedUntil.filter fun until_ => now < until_

/-- Nothing left to remember: not locked, and its window is over. -/
def isStale (e : Entry) (now : ℤ) : Bool :=
  (e.lockedAt now).isNone && (e.lockedUntil.isSome || decide (WINDOW < since now e.windowStart))

/-- When this entry stops holding its address's share, at the earliest. -/
def freesAt (e : Entry) (now : ℤ) : ℤ := (e.lockedAt now).getD (e.windowStart + WINDOW)

/-- The end of `Table::admit`, on the pair's own entry: check the lock and count the attempt. -/
def admission (e : Entry) (now : ℤ) : Entry × Decision :=
  match e.lockedAt now with
  | some until_ => (e, .Locked (since until_ now))
  | none =>
    let e := if e.isStale now then fresh now else e
    let e := { e with attempts := e.attempts + 1 }
    let e := if MAX_FAILURES ≤ e.attempts then { e with lockedUntil := some (now + LOCKOUT) } else e
    (e, .Allow)

/-- The key `make_room` takes the minimum of: unlocked pairs first, by window start, then locked
    ones, by expiry. -/
def evictionKey (e : Entry) (now : ℤ) : ℕ × ℤ :=
  match e.lockedAt now with
  | none => (0, e.windowStart)
  | some until_ => (1, until_)

/-- Tuples compare by their first halves, then by their second. -/
def evictedBefore (now : ℤ) (e f : Entry) : Bool :=
  let (a, i) := e.evictionKey now
  let (b, j) := f.evictionKey now
  a < b || (a == b && i < j)

end Entry

/-- Pairs grouped by address, with their number beside them. -/
structure Table (A E : Type*) where
  byIp : FMap A (FMap E Entry)
  total : ℕ

namespace Table

variable {A E : Type*}

def default : Table A E := ⟨FMap.empty, 0⟩

def get (t : Table A E) (ip : A) (email : E) : Option Entry := (t.byIp.get ip).bind (·.get email)

def heldBy (t : Table A E) (ip : A) : ℕ := (t.byIp.group ip).size

def addressFreesUpIn (t : Table A E) (ip : A) (now : ℤ) : ℤ :=
  match t.byIp.get ip with
  | none => 0
  | some pairs =>
    let frees := pairs.values fun _ e => e.freesAt now
    if h : frees.Nonempty then since (frees.min' h) now else 0

variable [DecidableEq A] [DecidableEq E]

/-- `by_ip.entry(ip).or_default()` with one pair written in it. -/
def put (byIp : FMap A (FMap E Entry)) (ip : A) (email : E) (e : Entry) : FMap A (FMap E Entry) :=
  byIp.set ip (some ((byIp.group ip).set email (some e)))

/-- Adds a pair read from the store. -/
def load (t : Table A E) (ip : A) (email : E) (e : Entry) : Table A E :=
  { byIp := put t.byIp ip email e
    total := if (t.get ip email).isNone then t.total + 1 else t.total }

def remove (t : Table A E) (ip : A) (email : E) : Table A E :=
  match t.byIp.get ip with
  | none => t
  | some pairs =>
    let left := pairs.set email none
    { byIp := t.byIp.set ip left.unlessEmpty
      total := if (pairs.get email).isSome then t.total - 1 else t.total }

def reclaimAddress (t : Table A E) (ip : A) (now : ℤ) : Table A E :=
  match t.byIp.get ip with
  | none => t
  | some pairs =>
    let left := pairs.filter fun _ e => !e.isStale now
    { byIp := t.byIp.set ip left.unlessEmpty
      total := t.total - (pairs.size - left.size) }

/-- `make_room`'s first sweep: every address keeps its live pairs, and goes when it has none. -/
def retainLive (byIp : FMap A (FMap E Entry)) (now : ℤ) : FMap A (FMap E Entry) :=
  byIp.filterMap fun _ pairs => (pairs.filter fun _ e => !e.isStale now).unlessEmpty

/-- The most pairs any address holds. -/
def most (byIp : FMap A (FMap E Entry)) : ℕ :=
  byIp.keys.sup fun ip => (byIp.group ip).size

/-- The pairs of the addresses holding the most, in the order the maps iterate in. -/
def crowded (order : Listing (A × E)) (byIp : FMap A (FMap E Entry)) : List ((A × E) × Entry) :=
  (order.list byIp.flat.keys).filterMap fun p =>
    if (byIp.group p.1).size = most byIp then (byIp.flat.get p).map (p, ·) else none

/-- Makes room for one more pair when the table is full: stale pairs first, then one live pair of
    the addresses holding the most. -/
def makeRoom (order : Listing (A × E)) (t : Table A E) (now : ℤ) : Table A E :=
  if t.total < MAX_TRACKED then t
  else
    let byIp := retainLive t.byIp now
    let t : Table A E := ⟨byIp, ∑ ip ∈ byIp.keys, (byIp.group ip).size⟩
    if t.total < MAX_TRACKED then t
    else
      match firstMin (fun c d => c.2.evictedBefore now d.2) (crowded order byIp) with
      | some (p, _) => t.remove p.1 p.2
      | none => t

/-- The part of an admission that needs nothing but the address's own pairs. -/
def refuseAtShare (t : Table A E) (ip : A) (email : E) (now : ℤ) : Table A E × Option Decision :=
  if (t.get ip email).isSome then (t, none)
  else
    let t := t.reclaimAddress ip now
    (t, if MAX_PAIRS_PER_IP ≤ t.heldBy ip then some (.Locked (t.addressFreesUpIn ip now)) else none)

/-- A new pair, inserted fresh once there is room for it. -/
def insertNew (order : Listing (A × E)) (t : Table A E) (ip : A) (email : E) (now : ℤ) :
    Table A E :=
  if (t.get ip email).isNone then
    let t := t.makeRoom order now
    { byIp := put t.byIp ip email (Entry.fresh now), total := t.total + 1 }
  else t

/-- Checks the lock and counts this attempt, in one step. -/
def admission (order : Listing (A × E)) (t : Table A E) (ip : A) (email : E) (now : ℤ) :
    Table A E × Decision :=
  match t.refuseAtShare ip email now with
  | (t, some refused) => (t, refused)
  | (t, none) =>
    let t := t.insertNew order ip email now
    -- `expect("present or inserted above")`: `get_insertNew` says the pair is there
    let entry := (t.get ip email).getD (Entry.fresh now)
    let (entry, decision) := entry.admission now
    ({ t with byIp := put t.byIp ip email entry }, decision)

end Table

end Home.Throttle
