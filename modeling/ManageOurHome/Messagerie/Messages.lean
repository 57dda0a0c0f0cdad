import Mathlib.Data.List.Sort
import Mathlib.Data.Prod.Lex
import Mathlib.Order.WithBot
import ManageOurHome.Time

/-! @src apps/api/src/messagerie/messages.rs, apps/web/src/routes/messagerie/thread.rs | layer:model |
    family:messagerie

    The thread of a family: its messages, how far each member has read, the newest page, and what is unread by the
    pastille, by the home card and by the list. -/

namespace Home.Messagerie

/-- A row of `messages`, as far as the thread is ordered and counted. -/
structure Message (U I : Type) where
  id : I
  createdBy : U
  createdAt : ℤ
  deriving DecidableEq, Repr

/-- The rows of `messages` and of `message_read_state` of one family. -/
structure Thread (U I : Type) where
  messages : List (Message U I)
  lastReadAt : U → Option ℤ

structure ListMessagesQuery (I : Type) where
  beforeCreatedAt : Option ℤ
  beforeId : Option I
  limit : Option ℤ
  unread : Bool

structure MessageList (U I : Type) where
  messages : List (Message U I)
  hasMore : Bool
  unreadTotal : Option ℕ

def DEFAULT_PAGE_LIMIT : ℤ := 50

def MAX_PAGE_LIMIT : ℤ := 100

/-- How many messages a page has at most. -/
def pageLimit (limit : Option ℤ) : ℕ := (max 1 (min (limit.getD DEFAULT_PAGE_LIMIT) MAX_PAGE_LIMIT)).toNat

variable {U I : Type}

/-- Where a message stands in the thread: `(created_at, id)`. -/
def Message.place (m : Message U I) : Lex (ℤ × I) := toLex (m.createdAt, m.id)

variable [DecidableEq U] [LinearOrder I]

/-- `(created_at, id) < (before_created_at, before_id)`: no row when the ids would decide and none is given. -/
def Message.before (m : Message U I) (q : ListMessagesQuery I) : Bool :=
  match q.beforeCreatedAt with
  | none => true
  | some createdAt => m.createdAt < createdAt ∨ m.createdAt = createdAt ∧ q.beforeId.any fun id => m.id < id

/-- `ORDER BY created_at DESC, id DESC`. -/
def newestFirst (messages : List (Message U I)) : List (Message U I) :=
  messages.insertionSort fun m m' => m'.place ≤ m.place

/-- Which of `messages` are unread for `caller`: its own never are. -/
def unreadMessages (messages : List (Message U I)) (lastReadAt : Option ℤ) (caller : U) : List (Message U I) :=
  (messages.filter fun m => m.createdBy ≠ caller).filter fun m => lastReadAt.all fun watermark => m.createdAt > watermark

/-- What `unread_total` counts. -/
def totalled (thread : Thread U I) (caller : U) (m : Message U I) : Bool :=
  m.createdBy ≠ caller ∧ ((thread.lastReadAt caller).isNone ∨ (thread.lastReadAt caller).any fun t => m.createdAt > t)

def listMessages (thread : Thread U I) (caller : U) (q : ListMessagesQuery I) : MessageList U I :=
  let limit := pageLimit q.limit
  let rows := (newestFirst (thread.messages.filter fun m => m.before q ∧ (!q.unread ∨ m.createdBy ≠ caller))).take (limit + 1)
  let messages := rows.take limit
  if q.unread then
    let unreadTotal := (thread.messages.filter (totalled thread caller)).length
    let messages := unreadMessages messages (thread.lastReadAt caller) caller
    ⟨messages, unreadTotal > messages.length, some unreadTotal⟩
  else ⟨messages, rows.length > limit, none⟩

/-- Instants compare as numbers do, computably. -/
local instance instantOrder : Preorder ℤ := Int.instLinearOrder.toPreorder

/-- What `unread_count` counts: `-infinity` before everything. -/
def counted (thread : Thread U I) (caller : U) (m : Message U I) : Bool :=
  m.createdBy ≠ caller ∧ (m.createdAt : WithBot ℤ) > (thread.lastReadAt caller).elim ⊥ WithBot.some

def unreadCount (thread : Thread U I) (caller : U) : ℕ := (thread.messages.filter (counted thread caller)).length

/-- The watermark moves forward only, and not past `now`. -/
def markMessagesRead (thread : Thread U I) (caller : U) (upTo : Option ℤ) (now : ℤ) : Thread U I :=
  let excluded := min (upTo.getD now) now
  let lastReadAt := (thread.lastReadAt caller).elim excluded fun t => max t excluded
  { thread with lastReadAt := Function.update thread.lastReadAt caller lastReadAt }

/-- How far the marker may advance after `list` is rendered: the newest message of a live window. -/
def readWatermark (list : MessageList U I) (live : Bool) : Option ℤ :=
  if !live then none else (list.messages.map (·.createdAt)).max?

end Home.Messagerie
