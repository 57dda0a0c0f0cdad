import Mathlib.Algebra.GroupWithZero.Nat
import Mathlib.Data.Prod.Lex
import ManageOurHome.Error
import ManageOurHome.Lib.Keyset
import ManageOurHome.Lib.RowLocks
import ManageOurHome.Notifications.Push

/-! @src apps/api/src/notifications/preferences.rs, apps/api/src/notifications/push.rs | layer:model | family:push

    The devices an account keeps. A subscription locks the caller's `users` row, writes the endpoint's row whoever had
    it, then deletes the caller's devices past the ceiling: the statement picks them in its snapshot, and comes to each
    one as it then stands. PostgreSQL checks `id IN (…)` again there, and no more.

        idle ─▶ locked ─▶ stamped ─▶ registered ─▶ evicting ⟲ ─▶ created
          └──────────────────────────────────────▶ forgetting ⟲ ─▶ noContent -/

namespace Home.Devices

open Push (Failures Columns)

/-! ### Endpoints -/

/-- The `url` crate. -/
structure Web where
  Url : Type
  parse : Text → Option Url
  asStr : Url → Text
  scheme : Url → Text
  username : Url → Text
  password : Url → Option Text
  port : Url → Option ℕ
  domain : Url → Option Text
  hostStr : Url → Option Text

/-- Push services whose host is matched exactly. -/
def EXACT_HOSTS : List Text := ["fcm.googleapis.com".toList, "updates.push.services.mozilla.com".toList]

/-- Push services matched on a domain and any of its subdomains. -/
def HOST_SUFFIXES : List Text := ["push.apple.com".toList, "notify.windows.com".toList]

/-- Longest endpoint taken, in bytes. -/
def MAX_ENDPOINT_LEN : ℕ := 1024

/-- Why an endpoint is refused. -/
inductive EndpointError where
  | TooLong | NotAUrl | NotHttps | UnexpectedPart | UnknownPushService
  deriving DecidableEq

def knownHost (host : Text) : Bool :=
  host ∈ EXACT_HOSTS || HOST_SUFFIXES.any fun suffix =>
    host = suffix || (suffix.isSuffixOf host && (host.take (host.length - suffix.length)).getLast? = some '.')

/-- The endpoint parsed, if it is a push service's. -/
def validateEndpoint (web : Web) (raw : Text) : Except EndpointError web.Url :=
  if MAX_ENDPOINT_LEN < (raw.map Char.utf8Size).sum then .error .TooLong
  else
    match web.parse raw with
    | none => .error .NotAUrl
    | some url =>
      if web.scheme url ≠ "https".toList then .error .NotHttps
      else if web.username url ≠ [] ∨ (web.password url).isSome ∨ (web.port url).isSome then .error .UnexpectedPart
      else
        match web.domain url with
        | none => .error (if (web.hostStr url).isSome then .UnexpectedPart else .NotAUrl)
        | some host => if !knownHost host then .error .UnknownPushService else .ok url

/-! ### Devices -/

/-- A row of `push_subscriptions`. -/
structure Device (A : Type) where
  id : ℕ
  userId : A
  endpoint : Text
  createdAt : ℤ
  lastSeenAt : ℤ
  lastSuccessAt : Option ℤ
  failures : Failures
  pending : Columns
  deriving DecidableEq

variable {A : Type} [DecidableEq A]

/-- Devices an account keeps subscribed. -/
def MAX_DEVICES_PER_ACCOUNT : ℕ := 50

/-- `GREATEST(last_seen_at, last_success_at)`. -/
def Device.lastUsed (d : Device A) : ℤ := d.lastSuccessAt.elim d.lastSeenAt (max d.lastSeenAt)

/-- `(GREATEST(last_seen_at, last_success_at), id)`. -/
def Device.place (d : Device A) : ℤ ×ₗ ℕ := toLex (d.lastUsed, d.id)

/-- What `VALUES` gives, in a row of its own. -/
def Device.inserted (id : ℕ) (userId : A) (endpoint : Text) (createdAt lastSeenAt : ℤ) : Device A :=
  ⟨id, userId, endpoint, createdAt, lastSeenAt, none, ⟨0, none⟩, ⟨none, 0, none⟩⟩

/-- `DO UPDATE SET`: the same account's keeps its record, another's starts afresh. -/
def Device.updated (d : Device A) (userId : A) (createdAt lastSeenAt : ℤ) : Device A :=
  let same : Bool := d.userId = userId
  { d with
    lastSeenAt := lastSeenAt
    userId := userId
    createdAt := if same then d.createdAt else createdAt
    lastSuccessAt := if same then d.lastSuccessAt else none
    failures :=
      { consecutiveFailures := if same then d.failures.consecutiveFailures else 0
        failingSince := if same then d.failures.failingSince else none }
    pending :=
      { pendingPushKind := if same then d.pending.pendingPushKind else none
        pendingPushes := if same then d.pending.pendingPushes else 0
        pendingUntil := if same then d.pending.pendingUntil else none } }

/-- The rows, with one written: its endpoint is of one row. -/
def put (d : Device A) (rows : List (Device A)) : List (Device A) :=
  if rows.any fun x => x.endpoint = d.endpoint then rows.map fun x => if x.endpoint = d.endpoint then d else x
  else rows ++ [d]

/-- The rows, some of them deleted. -/
def without (gone rows : List (Device A)) : List (Device A) := rows.filter fun x => x.id ∉ gone.map Device.id

/-- `SELECT id … WHERE user_id = $1 ORDER BY GREATEST(last_seen_at, last_success_at) DESC, id DESC OFFSET 50`. -/
def evicted (rows : List (Device A)) (userId : A) : List (Device A) :=
  (Keyset.newestFirst Device.place (rows.filter fun x => x.userId = userId)).drop MAX_DEVICES_PER_ACCOUNT

/-! ### Transactions -/

inductive Request (A : Type) where
  | subscribe (userId : A) (endpoint : Text)
  | unsubscribeAll (userId : A)

/-- What a transaction did. -/
inductive Change (A : Type) where
  | subscribed (userId : A) (endpoint : Text)
  | unsubscribed (userId : A)
  deriving DecidableEq

/-- A transaction that committed: what it did, the rows its `DELETE` picked from, and the table around its commit. -/
structure Commit (A : Type) where
  change : Change A
  seen : List (Device A)
  before : List (Device A)
  after : List (Device A)

/-- The clock, the ids given and the endpoint each was given for, the committed rows, and the commits, the last first. -/
structure Db (A : Type) where
  clock : ℤ
  ids : List (ℕ × Text)
  rows : List (Device A)
  log : List (Commit A)

/-- Where a request is. A `DELETE` under way has the rows of its snapshot, those it came to, and those still picked. -/
inductive Pc (A : Type) where
  | idle (request : Request A)
  | locked (userId : A) (endpoint : Text)
  | stamped (userId : A) (endpoint : Text) (createdAt lastSeenAt : ℤ)
  | registered (d : Device A)
  | evicting (d : Device A) (seen reached left : List (Device A))
  | forgetting (userId : A) (seen reached left : List (Device A))
  | created
  | noContent
  | refused (error : AppError)
  | failed

/-- A row that is locked: the account's, or the endpoint's, there or being written. -/
inductive Key (A : Type) where
  | user (userId : A)
  | device (endpoint : Text)
  deriving DecidableEq

def Pc.held : Pc A → List (Key A × RowLocks.Mode)
  | .locked a _ | .stamped a _ _ _ => [(.user a, .update)]
  | .registered d => [(.user d.userId, .update), (.device d.endpoint, .update)]
  | .evicting d _ reached _ =>
    (.user d.userId, .update) :: (.device d.endpoint, .update) :: reached.map fun x => (.device x.endpoint, .update)
  | .forgetting _ _ reached _ => reached.map fun x => (.device x.endpoint, .update)
  | _ => []

variable (web : Web) (configured : Bool)

/-- One statement of a request, or its visit to one row; a connection may break at any point. Each reading of
    `clock_timestamp()` comes after the statements before it. -/
inductive Move : Db A → Pc A → Db A → Pc A → Prop where
  | fail (s : Db A) (l : Pc A) : Move s l s .failed
  | notConfigured (s : Db A) (a : A) (raw : Text) (h : configured = false) :
      Move s (.idle (.subscribe a raw)) s (.refused (.Conflict "push_not_configured"))
  | invalid (s : Db A) (a : A) (raw : Text) (e : EndpointError) (h : configured = true)
      (hraw : validateEndpoint web raw = .error e) :
      Move s (.idle (.subscribe a raw)) s (.refused (.BadRequest "invalid_push_endpoint"))
  /-- `SELECT id FROM users WHERE id = $1 FOR UPDATE` -/
  | lock (s : Db A) (a : A) (raw : Text) (url : web.Url) (h : configured = true)
      (hraw : validateEndpoint web raw = .ok url) : Move s (.idle (.subscribe a raw)) s (.locked a (web.asStr url))
  /-- `VALUES`, before the endpoint's row is waited for. -/
  | stamp (s : Db A) (a : A) (endpoint : Text) (createdAt lastSeenAt : ℤ) (h : s.clock < createdAt)
      (hseen : createdAt ≤ lastSeenAt) :
      Move s (.locked a endpoint) { s with clock := lastSeenAt } (.stamped a endpoint createdAt lastSeenAt)
  | insert (s : Db A) (a : A) (endpoint : Text) (createdAt lastSeenAt : ℤ) (id : ℕ)
      (h : ∀ x ∈ s.rows, x.endpoint ≠ endpoint) (hid : id ∉ s.ids.map Prod.fst) :
      Move s (.stamped a endpoint createdAt lastSeenAt) { s with ids := (id, endpoint) :: s.ids }
        (.registered (.inserted id a endpoint createdAt lastSeenAt))
  /-- `ON CONFLICT (endpoint) DO UPDATE` -/
  | update (s : Db A) (a : A) (createdAt lastSeenAt : ℤ) (x : Device A) (h : x ∈ s.rows) :
      Move s (.stamped a x.endpoint createdAt lastSeenAt) s (.registered (x.updated a createdAt lastSeenAt))
  /-- The `DELETE` past the ceiling, in its snapshot. -/
  | evict (s : Db A) (d : Device A) :
      Move s (.registered d) s (.evicting d (put d s.rows) [] (evicted (put d s.rows) d.userId))
  /-- It comes to a row as it stands, `id IN (…)` still. -/
  | evictRow (s : Db A) (d : Device A) (seen reached before after : List (Device A)) (x y : Device A)
      (h : y ∈ put d s.rows) (hid : y.id = x.id) :
      Move s (.evicting d seen reached (before ++ x :: after)) s (.evicting d seen (y :: reached) (before ++ after))
  | evictGone (s : Db A) (d : Device A) (seen reached before after : List (Device A)) (x : Device A)
      (h : ∀ y ∈ put d s.rows, y.id ≠ x.id) :
      Move s (.evicting d seen reached (before ++ x :: after)) s (.evicting d seen reached (before ++ after))
  | commit (s : Db A) (d : Device A) (seen reached : List (Device A)) :
      Move s (.evicting d seen reached [])
        { s with
          rows := without reached (put d s.rows)
          log := ⟨.subscribed d.userId d.endpoint, seen, s.rows, without reached (put d s.rows)⟩ :: s.log } .created
  /-- `DELETE FROM push_subscriptions WHERE user_id = $1`, in its snapshot. -/
  | forget (s : Db A) (a : A) :
      Move s (.idle (.unsubscribeAll a)) s (.forgetting a s.rows [] (s.rows.filter fun x => x.userId = a))
  | forgetRow (s : Db A) (a : A) (seen reached before after : List (Device A)) (x y : Device A) (h : y ∈ s.rows)
      (hid : y.id = x.id) :
      Move s (.forgetting a seen reached (before ++ x :: after)) s (.forgetting a seen (y :: reached) (before ++ after))
  | forgetGone (s : Db A) (a : A) (seen reached before after : List (Device A)) (x : Device A)
      (h : ∀ y ∈ s.rows, y.id ≠ x.id) :
      Move s (.forgetting a seen reached (before ++ x :: after)) s (.forgetting a seen reached (before ++ after))
  /-- Of the rows it came to, those with `user_id = $1` still. -/
  | forgotten (s : Db A) (a : A) (seen reached : List (Device A)) :
      Move s (.forgetting a seen reached [])
        { s with
          rows := without (reached.filter fun x => x.userId = a) s.rows
          log := ⟨.unsubscribed a, seen, s.rows, without (reached.filter fun x => x.userId = a) s.rows⟩ :: s.log }
        .noContent

/-- The clock goes on. -/
def Ticks (s s' : Db A) : Prop := ∃ clock, s.clock ≤ clock ∧ s' = { s with clock := clock }

def system : RowLocks.System (Db A) (Pc A) (Key A) := ⟨Ticks, Move web configured, Pc.held⟩

/-- A subscription commits while no eviction under way has still to come to the row it wrote. -/
def Clear : Pc A → Pc A → Pc A → Prop
  | .evicting d _ _ _, .created, .evicting _ _ _ left => ∀ x ∈ left, x.id ≠ d.id
  | _, _, _ => True

end Home.Devices
