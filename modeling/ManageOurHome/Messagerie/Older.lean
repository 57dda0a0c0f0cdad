import ManageOurHome.Cursor
import ManageOurHome.Lib.Keyset
import ManageOurHome.Messagerie.Messages

/-! @src apps/shared/src/validation/messagerie.rs, apps/web/src/routes/messagerie/thread.rs,
    apps/api/src/messagerie/messages.rs | layer:model | family:messagerie

    The thread page by page: the address of a page, what it asks the API, and the link to the messages before. -/

namespace Home.Messagerie

variable {U I : Type} (w : Wire I)

structure ThreadQuery (I : Type) where
  beforeCreatedAt : Option ℤ
  beforeId : Option I
  limit : Option ℤ

def clampLimit (limit : Option ℤ) : ℤ := max 1 (min (limit.getD DEFAULT_PAGE_LIMIT) MAX_PAGE_LIMIT)

def olderPageQuery (createdAt : ℤ) (id : I) (limit : Option ℤ) : Text :=
  "before_created_at".toList ++ '=' :: w.toRfc3339 createdAt ++ '&' :: ("before_id".toList ++ '=' :: w.uuidText id ++
    limit.elim [] fun limit => '&' :: ("limit".toList ++ '=' :: Query.writeI64 (clampLimit (some limit))))

/-- What the page reads in its address, `LenientQuery<ThreadQuery>`. -/
def threadQuery (address : Text) : ThreadQuery I :=
  let pairs := fromQueryStr w address
  ⟨lenient pairs "before_created_at".toList w.parseInstant, lenient pairs "before_id".toList w.parseUuid,
    lenient pairs "limit".toList Query.readI64⟩

/-- A window is live unless it has a whole cursor. -/
def ThreadQuery.cursor (query : ThreadQuery I) : Option (ℤ × I) :=
  query.beforeCreatedAt.bind fun createdAt => query.beforeId.map fun id => (createdAt, id)

/-- The query of the page's request to the API. -/
def messagesQuery (limit : ℤ) (cursor : Option (ℤ × I)) : Text :=
  "limit".toList ++ '=' :: Query.writeI64 limit ++ cursor.elim [] fun c =>
    '&' :: ("before_created_at".toList ++ '=' :: w.toRfc3339 c.1 ++ '&' :: ("before_id".toList ++ '=' :: w.uuidText c.2))

def parseBool (s : Text) : Option Bool :=
  if s = "true".toList then some true else if s = "false".toList then some false else none

/-- What the API reads in a request, `Query<ListMessagesQuery>`. -/
def listMessagesQuery (raw : Text) : Option (ListMessagesQuery I) := do
  let pairs := Query.parse w.coding raw
  let beforeCreatedAt ← strict pairs "before_created_at".toList w.parseInstant
  let beforeId ← strict pairs "before_id".toList w.parseUuid
  let limit ← strict pairs "limit".toList Query.readI64
  let unread ← strict pairs "unread".toList parseBool
  return ⟨beforeCreatedAt, beforeId, limit, unread.getD false⟩

variable [DecidableEq U] [LinearOrder I]

/-- The list of a page: empty when the API refuses. -/
def Thread.get (thread : Thread U I) (reader : U) (address : Text) : MessageList U I :=
  let query := threadQuery w address
  match listMessagesQuery w (messagesQuery w (clampLimit query.limit) query.cursor) with
  | some q => listMessages thread reader q
  | none => ⟨[], false, none⟩

/-- « Charger les messages plus anciens »: after the oldest message of the window, when there are older ones. -/
def olderLink (list : MessageList U I) (limit : Option ℤ) : Option Text :=
  if list.hasMore then list.messages.reverse.head?.map fun oldest => olderPageQuery w oldest.createdAt oldest.id limit
  else none

/-- The messages of a family at some instant: one row an id, dated by the database. -/
structure Snapshot (U I : Type) extends Thread U I where
  unique : (messages.map (·.id)).Nodup
  dated : ∀ m ∈ messages, Stamp m.createdAt

/-- The pages of a reader who follows the link to the older messages, from an address on: what the thread holds each
    time, and the limit the link then carries. -/
def browse (reader : U) : Text → List (Snapshot U I × Option ℤ) → List (MessageList U I)
  | _, [] => []
  | address, (thread, limit) :: visits =>
    let list := thread.get w reader address
    list :: (olderLink w list limit).elim [] fun address => browse reader address visits

end Home.Messagerie
