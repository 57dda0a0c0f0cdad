import ManageOurHome.Error
import ManageOurHome.Lib.Atomic
import ManageOurHome.Time

/-! @src apps/api/src/auth/session.rs, apps/api/src/user_admin/mod.rs | layer:model | family:sessions

    A session's row, the verdict a request gets on it, and what the request writes back: the moment it was
    used, and, for a superadmin's session found idle, an earlier end. A request reads the row, then the
    clock, then updates the row, and on an admin route reads the clock again.

        read ─▶ judged ─▶ UPDATE … committed ─▶ answered -/

namespace Home.UserAdmin

/-! ### The row, and the verdict on it -/

def SESSION_TTL_DAYS : ℤ := 30

def SESSION_IDLE_TIMEOUT_DAYS : ℤ := 7

def LAST_SEEN_REFRESH_MINUTES : ℤ := 60

def SUPERADMIN_SESSION_MAX_AGE_HOURS : ℤ := 12

def SUPERADMIN_IDLE_TIMEOUT_HOURS : ℤ := 2

/-- A session's row, with its account's. -/
structure SessionRow where
  createdAt : ℤ
  expiresAt : ℤ
  lastSeenAt : ℤ
  revoked : Bool
  restricted : Bool
  deactivated : Bool
  deleted : Bool
  ageDeclared : Bool
  termsAccepted : Bool
  isSuperadmin : Bool
  deriving DecidableEq, Repr

def isIdle (now lastSeenAt : ℤ) : Bool := lastSeenAt + SESSION_IDLE_TIMEOUT_DAYS * day < now

def lastSeenNeedsRefresh (now lastSeenAt : ℤ) : Bool := lastSeenAt + LAST_SEEN_REFRESH_MINUTES * minute < now

inductive SessionAccess where
  | Full | Deactivated | AgeUndeclared | TermsNotAccepted | Refused
  deriving DecidableEq, Repr

def sessionAccess (restricted deactivated deleted ageDeclared : Bool) : SessionAccess :=
  match deleted, restricted, deactivated with
  | false, false, false => if ageDeclared then .Full else .AgeUndeclared
  | false, true, true => .Deactivated
  | _, _, _ => .Refused

def sessionState (now : ℤ) (row : SessionRow) : SessionAccess :=
  if row.revoked ∨ row.expiresAt < now ∨ isIdle now row.lastSeenAt then .Refused
  else match sessionAccess row.restricted row.deactivated row.deleted row.ageDeclared with
    | .Full => if row.termsAccepted then .Full else .TermsNotAccepted
    | access => access

/-! ### The admin access -/

/-- Unused past the admin timeout. -/
def superadminSessionIsIdle (now lastSeenAt : ℤ) : Bool :=
  lastSeenAt + SUPERADMIN_IDLE_TIMEOUT_HOURS * hour < now

def adminAccessMargin : ℤ := SESSION_TTL_DAYS * day - SUPERADMIN_SESSION_MAX_AGE_HOURS * hour

/-- The last moment the admin routes take a session. -/
def adminAccessEnd (expiresAt : ℤ) : ℤ := expiresAt - adminAccessMargin

/-- The end that closes the admin access of a session found idle. -/
def closedAdminExpiry (now expiresAt lastSeenAt : ℤ) : Option ℤ :=
  if !superadminSessionIsIdle now lastSeenAt ∨ adminAccessEnd expiresAt < now then none
  else
    let closed := lastSeenAt + SUPERADMIN_IDLE_TIMEOUT_HOURS * hour + adminAccessMargin
    if closed < expiresAt then some closed else none

def superadminSessionIsFresh (now createdAt expiresAt lastSeenAt : ℤ) : Bool :=
  createdAt + SUPERADMIN_SESSION_MAX_AGE_HOURS * hour ≥ now ∧ adminAccessEnd expiresAt ≥ now ∧
    !superadminSessionIsIdle now lastSeenAt

/-! ### A request -/

/-- The closure a request on this row writes. -/
def closedExpiry (now : ℤ) (row : SessionRow) : Option ℤ :=
  if row.isSuperadmin then closedAdminExpiry now row.expiresAt row.lastSeenAt else none

/-- `UPDATE sessions SET last_seen_at = now(), expires_at = LEAST(expires_at, COALESCE($2, expires_at))`. -/
def refresh (stamp : ℤ) (closed : Option ℤ) (row : SessionRow) : SessionRow :=
  { row with lastSeenAt := stamp, expiresAt := min row.expiresAt (closed.getD row.expiresAt) }

structure LoadedSession where
  isSuperadmin : Bool
  createdAt : ℤ
  expiresAt : ℤ
  lastSeenAt : ℤ
  access : SessionAccess
  deriving DecidableEq, Repr

def loadedSession (now : ℤ) (row : SessionRow) : LoadedSession where
  isSuperadmin := row.isSuperadmin
  createdAt := row.createdAt
  expiresAt := (closedExpiry now row).getD row.expiresAt
  lastSeenAt := row.lastSeenAt
  access := sessionState now row

/-- `AuthUser::from_request_parts`, the session loaded. -/
def authUser (session : LoadedSession) : Except AppError LoadedSession :=
  match session.access with
  | .Full => .ok session
  | .AgeUndeclared => .error .AgeNotDeclared
  | .TermsNotAccepted => .error .TermsNotAccepted
  | .Deactivated | .Refused => .error .AccountDeactivated

/-- `SuperAdminUser::from_request_parts`, the session loaded. -/
def superAdminUser (now : ℤ) (session : LoadedSession) : Except AppError LoadedSession :=
  match authUser session with
  | .error e => .error e
  | .ok auth =>
    if !auth.isSuperadmin then .error .Forbidden
    else if !superadminSessionIsFresh now auth.createdAt auth.expiresAt auth.lastSeenAt then .error .Unauthorized
    else .ok auth

inductive Route where
  | admin | member
  deriving DecidableEq, Repr

/-- Whether the route takes the session. -/
def takes (route : Route) (now : ℤ) (session : LoadedSession) : Except AppError LoadedSession :=
  match route with
  | .admin => superAdminUser now session
  | .member => authUser session

/-- A request on a route, and where it stands. -/
inductive Request where
  | waiting (route : Route)
  | found (route : Route) (row : SessionRow)
  | judged (route : Route) (row : SessionRow) (judgedAt : ℤ)
  | updating (route : Route) (row : SessionRow) (judgedAt stamp : ℤ)
  | loaded (route : Route) (row : SessionRow) (judgedAt : ℤ)
  | answered (route : Route) (row : SessionRow) (judgedAt now : ℤ) (answer : Except AppError LoadedSession)

/-- The clock, and the session's row. -/
structure Store where
  clock : ℤ
  row : SessionRow

/-- Time passes; and whatever else is done to the session or its account leaves its dates alone. -/
inductive Outside : Store → Store → Prop where
  | tick (s : Store) (c : ℤ) (h : s.clock ≤ c) : Outside s { s with clock := c }
  | other (s : Store) (row : SessionRow) (hcreated : row.createdAt = s.row.createdAt)
      (hexpires : row.expiresAt = s.row.expiresAt) (hseen : row.lastSeenAt = s.row.lastSeenAt)
      (hsuper : row.isSuperadmin = s.row.isSuperadmin) : Outside s { s with row := row }

/-- `load_session`, then the route's own check. -/
inductive Serve : Store → Request → Store → Request → Prop where
  | read (s : Store) (route : Route) : Serve s (.waiting route) s (.found route s.row)
  | refuse (s : Store) (route : Route) (row : SessionRow) (h : sessionState s.clock row = .Refused) :
      Serve s (.found route row) s (.answered route row s.clock s.clock (.error .Unauthorized))
  | judge (s : Store) (route : Route) (row : SessionRow) (h : sessionState s.clock row ≠ .Refused)
      (hstale : lastSeenNeedsRefresh s.clock row.lastSeenAt = true) :
      Serve s (.found route row) s (.judged route row s.clock)
  | keep (s : Store) (route : Route) (row : SessionRow) (h : sessionState s.clock row ≠ .Refused)
      (hrecent : lastSeenNeedsRefresh s.clock row.lastSeenAt = false) :
      Serve s (.found route row) s (.loaded route row s.clock)
  /-- The `UPDATE` begins: its `now()`. -/
  | update (s : Store) (route : Route) (row : SessionRow) (judgedAt : ℤ) :
      Serve s (.judged route row judgedAt) s (.updating route row judgedAt s.clock)
  | commit (s : Store) (route : Route) (row : SessionRow) (judgedAt stamp : ℤ) :
      Serve s (.updating route row judgedAt stamp)
        { s with row := refresh stamp (closedExpiry judgedAt row) s.row } (.loaded route row judgedAt)
  | answer (s : Store) (route : Route) (row : SessionRow) (judgedAt : ℤ) :
      Serve s (.loaded route row judgedAt) s
        (.answered route row judgedAt s.clock (takes route s.clock (loadedSession judgedAt row)))

def requests : Atomic.System Store Request := ⟨Outside, Serve⟩

end Home.UserAdmin
