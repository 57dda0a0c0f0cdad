import ManageOurHome.Cursor
import ManageOurHome.Error
import ManageOurHome.Lib.Keyset
import Mathlib.Data.Prod.Lex

/-! @src apps/api/src/notifications/center.rs, apps/web/src/routes/notifications.rs | layer:model | family:center

    The notification centre: a member's entries newest first, of every kind or of one, by pages, and the page of the
    site with its link to the older ones. -/

namespace Home.Center

inductive Kind where
  | AgendaReminder | StockExpiry | Message | Invitation | GroceryItem | BudgetAlert
  deriving DecidableEq, Repr

def Kind.ALL : List Kind := [.AgendaReminder, .StockExpiry, .Message, .Invitation, .GroceryItem, .BudgetAlert]

def Kind.asStr : Kind → Text
  | .AgendaReminder => "agenda_reminder".toList
  | .StockExpiry => "stock_expiry".toList
  | .Message => "message".toList
  | .Invitation => "invitation".toList
  | .GroceryItem => "grocery_item".toList
  | .BudgetAlert => "budget_alert".toList

def Kind.parse (value : Text) : Option Kind := Kind.ALL.find? fun kind => kind.asStr = value

/-- A row of `notifications`, as the list reads it. -/
structure Notification (U I : Type) where
  id : I
  userId : U
  groupId : I
  kind : Kind
  objectId : Option I
  body : Text
  readAt : Option ℤ
  createdAt : ℤ
  deriving DecidableEq

structure ListQuery (I : Type) where
  kind : Option Text
  beforeCreatedAt : Option ℤ
  beforeId : Option I
  limit : Option ℤ

structure NotificationPage (U I : Type) where
  notifications : List (Notification U I)
  hasMore : Bool

def DEFAULT_PAGE_LIMIT : ℤ := 20

def MAX_PAGE_LIMIT : ℤ := 100

def pageLimit (limit : Option ℤ) : ℕ := (max 1 (min (limit.getD DEFAULT_PAGE_LIMIT) MAX_PAGE_LIMIT)).toNat

variable {U I : Type}

/-- Where an entry stands in the list: `(created_at, id)`. -/
def Notification.place (n : Notification U I) : Lex (ℤ × I) := toLex (n.createdAt, n.id)

section

variable [DecidableEq U] [LinearOrder I]

/-- `(created_at, id) < (before_created_at, before_id)`. -/
def Notification.before (n : Notification U I) (q : ListQuery I) : Bool :=
  match q.beforeCreatedAt with
  | none => true
  | some createdAt => n.createdAt < createdAt ∨ n.createdAt = createdAt ∧ q.beforeId.any fun id => n.id < id

/-- The kind a list is asked for, when it is one. -/
def askedKind : Option Text → Except AppError (Option Kind)
  | none => .ok none
  | some value =>
    match Kind.parse value with
    | some kind => .ok (some kind)
    | none => .error (.BadRequest "invalid_notification_kind")

def listNotifications (table : List (Notification U I)) (caller : U) (q : ListQuery I) :
    Except AppError (NotificationPage U I) := do
  let kind ← askedKind q.kind
  if q.beforeCreatedAt.isSome ≠ q.beforeId.isSome then throw (.BadRequest "invalid_cursor")
  let limit := pageLimit q.limit
  let rows := (Keyset.newestFirst Notification.place (table.filter fun n =>
    n.userId = caller ∧ (kind.all fun kind => n.kind = kind) ∧ n.before q)).take (limit + 1)
  return ⟨rows.take limit, rows.length > limit⟩

end

/-! ### The page of the site -/

/-- The kinds of the filters, `None` for every kind. -/
def FILTERS : List (Option Text) :=
  [none, some "agenda_reminder".toList, some "stock_expiry".toList, some "message".toList, some "invitation".toList,
    some "grocery_item".toList, some "budget_alert".toList]

def kindFilter (raw : Option Text) : Option Text :=
  raw.bind fun raw => FILTERS.findSome? fun kind => kind.filter (· = raw)

def PAGE_LIMIT : ℤ := 30

structure PageQuery where
  kind : Option Text
  beforeCreatedAt : Option Text
  beforeId : Option Text
  error : Option Text

variable (w : Wire I)

/-- What the page reads in its address, `Query<PageQuery>`. -/
def pageQuery (address : Text) : Option PageQuery := do
  let pairs := Query.parse w.coding address
  let kind ← strict pairs "kind".toList some
  let beforeCreatedAt ← strict pairs "before_created_at".toList some
  let beforeId ← strict pairs "before_id".toList some
  let error ← strict pairs "error".toList some
  return ⟨kind, beforeCreatedAt, beforeId, error⟩

/-- Both halves valid, or no cursor. -/
def cursor (createdAt id : Option Text) : Option (ℤ × I) := do
  let createdAt ← createdAt.bind w.parseInstant
  let id ← id.bind w.parseUuid
  return (createdAt, id)

/-- The query of the page's request to the API; the page asks for `PAGE_LIMIT`. -/
def path (limit : ℤ) (kind : Option Text) (before : Option (ℤ × I)) : Text :=
  "limit".toList ++ '=' :: Query.writeI64 limit ++ (kind.elim [] (fun kind => '&' :: ("kind".toList ++ '=' :: kind)) ++
    before.elim [] fun c =>
      '&' :: ("before_created_at".toList ++ '=' :: w.cursorInstant c.1 ++ '&' :: ("before_id".toList ++ '=' :: w.uuidText c.2)))

/-- What the API reads in a request, `Query<ListQuery>`. -/
def listQuery (raw : Text) : Option (ListQuery I) := do
  let pairs := Query.parse w.coding raw
  let kind ← strict pairs "kind".toList some
  let beforeCreatedAt ← strict pairs "before_created_at".toList w.parseInstant
  let beforeId ← strict pairs "before_id".toList w.parseUuid
  let limit ← strict pairs "limit".toList Query.readI64
  return ⟨kind, beforeCreatedAt, beforeId, limit⟩

/-- The address of the next page, after `last`, as it is followed: `&amp;` reads as `&`. -/
def olderHref (kind : Option Text) (last : Notification U I) : Text :=
  kind.elim [] (fun kind => "kind".toList ++ '=' :: kind ++ ['&']) ++
    ("before_created_at".toList ++ '=' :: w.cursorInstant last.createdAt ++ '&' :: ("before_id".toList ++ '=' :: w.uuidText last.id))

inductive Listing (U I : Type) where
  | page (page : NotificationPage U I)
  | unavailable

variable [DecidableEq U] [LinearOrder I]

/-- The list of a page that asks for `limit` entries: unavailable when the API refuses. -/
def listing (limit : ℤ) (table : List (Notification U I)) (caller : U) (query : PageQuery) : Listing U I :=
  match listQuery w (path w limit (kindFilter query.kind) (cursor w query.beforeCreatedAt query.beforeId)) with
  | none => .unavailable
  | some q =>
    match listNotifications table caller q with
    | .ok page => .page page
    | .error _ => .unavailable

/-- « Notifications plus anciennes ». -/
def olderLink (kind : Option Text) (page : NotificationPage U I) : Option Text :=
  match page.notifications.getLast? with
  | some last => if page.hasMore then some (olderHref w kind last) else none
  | none => none

/-- The table at some instant: one row an id, dated by the database. -/
structure Snapshot (U I : Type) where
  rows : List (Notification U I)
  unique : (rows.map (·.id)).Nodup
  dated : ∀ n ∈ rows, Stamp n.createdAt

/-- The pages of a member who follows the link to the older entries, from an address on: what the table holds each
    time, and how many entries are asked for. -/
def browse (caller : U) : Text → List (Snapshot U I × Int64) → List (NotificationPage U I)
  | _, [] => []
  | address, (table, limit) :: visits =>
    match pageQuery w address with
    | none => []
    | some query =>
      match listing w limit.toInt table.rows caller query with
      | .unavailable => []
      | .page page =>
        page :: (olderLink w (kindFilter query.kind) page).elim [] fun address => browse caller address visits

end Home.Center
