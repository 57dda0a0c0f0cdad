import ManageOurHome.Lib.RowLocks
import ManageOurHome.Storage.Reconcile

/-! @src apps/api/src/agenda/attachments.rs, apps/api/src/agenda/events.rs, apps/api/src/avatar.rs,
    apps/api/src/attachment_reconcile.rs, apps/api/src/storage.rs | layer:model | family:storage

    The bucket and the rows that name its objects. They share no transaction: each request has its own order of
    writing the row, asking the storage and committing, and may end at any await. A call to the storage whose answer
    is not waited for may still be carried out.

        upload, new photo     row ─ put ─ commit ( ─ delete the photo before)
        delete                lock ─ delete the object ─ row ─ commit
        reconcile             list ─ read the keys ─ delete the orphans -/

namespace Home.Storage

open FiniteMap RowLocks

structure Attachment (K E : Type) where
  eventId : E
  storageKey : K
  deriving DecidableEq

/-- A row of `users`: purged or not, and its photo. -/
structure User (K : Type) where
  deleted : Bool
  avatarKey : Option K
  deriving DecidableEq

structure Stored where
  sizeBytes : ℤ
  lastModified : Option ℤ
  deriving DecidableEq

/-- The clock, the bucket and the rows. Then what has happened: keys generated, puts without an answer, when each
    object was put, keys a row has named, deletions asked for by requests that have not committed and by passes, and
    how many passes have begun. -/
structure Site (K U E A : Type) where
  clock : ℤ
  objects : FMap K Stored
  events : Finset E
  attachments : FMap A (Attachment K E)
  users : FMap U (User K)
  issued : Finset K
  astray : Finset K
  putAt : K → Option ℤ
  spent : Finset K
  asked : Finset K
  reaped : Finset K
  passes : ℕ

/-- A pass: its options, its `now`, and how many began before it. -/
structure Pass (K : Type) where
  opts : Options K
  now : ℤ
  number : ℕ

/-- Where a request or a pass is. -/
inductive Pc (K U E A : Type) where
  | idle
  | uploading (event : E) (id : A) (key : K) (sizeBytes : ℤ)
  | uploaded (event : E) (id : A) (key : K) (putAt : ℤ)
  | picturing (user : U) (previous : Option K) (key : K) (sizeBytes : ℤ)
  | pictured (user : U) (previous : Option K) (key : K) (putAt : ℤ)
  | replacing (previous : K)
  | clearing (user : U) (key : K)
  | cleared (user : U) (key : K)
  | detaching (id : A) (key : K)
  | detached (id : A) (key : K)
  | eventHeld (event : E)
  | erasing (event : E) (keys : List K)
  | listing (pass : Pass K) (listed : List (StoredObject K)) (token : Option K)
  | listed (pass : Pass K) (objects : List (StoredObject K))
  | reaping (pass : Pass K) (keys : List K)

/-- The rows that are locked, and the keys just generated: no other request generates them. -/
inductive Row (K U E : Type) where
  | user (id : U)
  | event (id : E)
  | key (key : K)

variable {K U E A : Type}

/-- The key of the row a request has written and not committed. -/
def Pc.pending : Pc K U E A → Option K
  | .uploading _ _ k _ | .uploaded _ _ k _ | .picturing _ _ k _ | .pictured _ _ k _ => some k
  | _ => none

def Pc.held : Pc K U E A → List (Row K U E × Mode)
  | .uploading e _ k _ | .uploaded e _ k _ => [(.event e, .keyShare), (.key k, .update)]
  | .picturing u _ k _ | .pictured u _ k _ => [(.user u, .update), (.key k, .update)]
  | .clearing u _ | .cleared u _ => [(.user u, .update)]
  | .eventHeld e | .erasing e _ => [(.event e, .update)]
  | _ => []

/-- What a row names: an attachment its object, a user a photo. -/
def Site.name (s : Site K U E A) : A ⊕ U → Option K
  | .inl a => (s.attachments.get a).map (·.storageKey)
  | .inr u => (s.users.get u).bind (·.avatarKey)

def Site.Named (s : Site K U E A) (k : K) : Prop := ∃ row, s.name row = some k

variable [LinearOrder K] [DecidableEq U] [DecidableEq E] [DecidableEq A]

def Site.knownStorageKeys (s : Site K U E A) : Finset K :=
  s.attachments.values (fun _ a => a.storageKey) ∪ (s.users.values fun _ u => u.avatarKey).eraseNone

def Site.issue (s : Site K U E A) (k : K) : Site K U E A := { s with issued := insert k s.issued }

def Site.putObject (s : Site K U E A) (k : K) (sizeBytes : ℤ) (stamp : Option ℤ) : Site K U E A :=
  { s with objects := s.objects.set k (some ⟨sizeBytes, stamp⟩), putAt := Function.update s.putAt k (some s.clock) }

def Site.deleteObjects (s : Site K U E A) (keys : List K) : Site K U E A :=
  { s with objects := s.objects.filter fun k _ => k ∉ keys }

/-- A deletion asked for. -/
def Site.ask (s : Site K U E A) (keys : List K) : Site K U E A := { s with asked := s.asked ∪ keys.toFinset }

/-- A deletion a pass asks for. -/
def Site.reap (s : Site K U E A) (keys : List K) : Site K U E A := { s with reaped := s.reaped ∪ keys.toFinset }

def Site.insertAttachment (s : Site K U E A) (a : A) (row : Attachment K E) : Site K U E A :=
  { s with attachments := s.attachments.set a (some row), spent := insert row.storageKey s.spent }

/-- `UPDATE users SET avatar_key = $2 WHERE id = $1 AND deleted_at IS NULL`. -/
def Site.replaceAvatar (s : Site K U E A) (u : U) (k : K) : Site K U E A :=
  { s with
    users := s.users.set u ((s.users.get u).map fun row => if row.deleted then row else { row with avatarKey := some k })
    spent := insert k s.spent }

def Site.clearAvatar (s : Site K U E A) (u : U) (k : K) : Site K U E A :=
  { s with
    users := s.users.set u ((s.users.get u).map fun row => { row with avatarKey := none })
    asked := s.asked.erase k }

def Site.deleteAttachment (s : Site K U E A) (a : A) (k : K) : Site K U E A :=
  { s with attachments := s.attachments.set a none, asked := s.asked.erase k }

/-- The keys of the attachments of an event. -/
def Site.storageKeysFor (s : Site K U E A) (e : E) : Finset K :=
  (s.attachments.filter fun _ row => row.eventId = e).values fun _ row => row.storageKey

/-- The event goes, and its attachments with it. -/
def Site.eraseEvent (s : Site K U E A) (e : E) : Site K U E A :=
  { s with
    events := s.events.erase e
    attachments := s.attachments.filter fun _ row => row.eventId ≠ e
    asked := s.asked \ s.storageKeysFor e }

/-- A request that ends before the storage answers leaves its put astray. -/
def Site.abandon (s : Site K U E A) : Pc K U E A → Site K U E A
  | .uploading _ _ k _ | .picturing _ _ k _ => { s with astray := insert k s.astray }
  | _ => s

/-- No longer from the put to the commit than `limit`, when there is one. -/
def Prompt (limit : Option ℤ) (putAt now : ℤ) : Prop := ∀ d ∈ limit, now ≤ putAt + d

/-- The age a pass waits for, no shorter than `limit`. -/
def Window (limit : Option ℤ) (minAgeHours : ℤ) : Prop := ∃ d ∈ limit, d ≤ minAgeHours * hour

variable (startsWith : K → K → Bool) (limit : Option ℤ)

/-- One page of the listing: the objects in scope past the token, up to the next token if there is one. -/
def Site.IsPage (s : Site K U E A) (scope token next : Option K) (page : List (StoredObject K)) : Prop :=
  ∀ o, o ∈ page ↔ s.objects.get o.key = some ⟨o.sizeBytes, o.lastModified⟩ ∧ (∀ p ∈ scope, startsWith o.key p = true) ∧
    (∀ t ∈ token, t < o.key) ∧ ∀ t ∈ next, o.key ≤ t

/-- One await of a request or a pass. An object is dated when it is put, if the storage dates it. -/
inductive Move : Site K U E A → Pc K U E A → Site K U E A → Pc K U E A → Prop where
  | checkEvent (s e a k size) (hevent : e ∈ s.events) (hfresh : k ∉ s.issued) :
      Move s .idle (s.issue k) (.uploading e a k size)
  | putAttachment (s e a k size stamp) (hstamp : ∀ m ∈ stamp, m = s.clock) :
      Move s (.uploading e a k size) (s.putObject k size stamp) (.uploaded e a k s.clock)
  | commitAttachment (s e a k t) (hid : s.attachments.get a = none) (hprompt : Prompt limit t s.clock) :
      Move s (.uploaded e a k t) (s.insertAttachment a ⟨e, k⟩) .idle
  | lockForPhoto (s u k size previous) (huser : s.users.get u = some ⟨false, previous⟩) (hfresh : k ∉ s.issued) :
      Move s .idle (s.issue k) (.picturing u previous k size)
  | putPhoto (s u previous k size stamp) (hstamp : ∀ m ∈ stamp, m = s.clock) :
      Move s (.picturing u previous k size) (s.putObject k size stamp) (.pictured u previous k s.clock)
  | commitPhoto (s u previous k t) (hprompt : Prompt limit t s.clock) :
      Move s (.pictured u previous k t) ((s.replaceAvatar u k).ask previous.toList) (previous.elim .idle .replacing)
  | previousDeleted (s k) : Move s (.replacing k) (s.deleteObjects [k]) .idle
  | lockForNoPhoto (s u k row) (huser : s.users.get u = some row) (hkey : row.avatarKey = some k) :
      Move s .idle (s.ask [k]) (.clearing u k)
  | photoDeleted (s u k) : Move s (.clearing u k) (s.deleteObjects [k]) (.cleared u k)
  | commitNoPhoto (s u k) : Move s (.cleared u k) (s.clearAvatar u k) .idle
  | selectAttachment (s a row) (hrow : s.attachments.get a = some row) :
      Move s .idle (s.ask [row.storageKey]) (.detaching a row.storageKey)
  | attachmentDeleted (s a k) : Move s (.detaching a k) (s.deleteObjects [k]) (.detached a k)
  | commitDetached (s a k) : Move s (.detached a k) (s.deleteAttachment a k) .idle
  | lockEvent (s e) (hevent : e ∈ s.events) : Move s .idle s (.eventHeld e)
  | collectKeys (s e keys) (hkeys : ∀ k, k ∈ keys ↔ k ∈ s.storageKeysFor e) :
      Move s (.eventHeld e) (s.ask (keys.take DELETE_OBJECTS_MAX_KEYS)) (.erasing e keys)
  | chunkDeleted (s e keys) (hne : keys ≠ []) :
      Move s (.erasing e keys)
        ((s.deleteObjects (keys.take DELETE_OBJECTS_MAX_KEYS)).ask
          ((keys.drop DELETE_OBJECTS_MAX_KEYS).take DELETE_OBJECTS_MAX_KEYS))
        (.erasing e (keys.drop DELETE_OBJECTS_MAX_KEYS))
  | commitErased (s e) : Move s (.erasing e []) (s.eraseEvent e) .idle
  | beginPass (s opts) (hhours : 0 ≤ opts.minAgeHours ∧ opts.minAgeHours ≤ MAX_MIN_AGE_HOURS)
      (hwindow : Window limit opts.minAgeHours) :
      Move s .idle { s with passes := s.passes + 1 } (.listing ⟨opts, s.clock, s.passes⟩ [] none)
  | listPage (s pass listed token next page) (hnext : ∀ t ∈ token, ∀ t' ∈ next, t < t')
      (hpage : s.IsPage startsWith pass.opts.scope token next page) :
      Move s (.listing pass listed token) s
        (next.elim (.listed pass (listed ++ page)) fun t => .listing pass (listed ++ page) (some t))
  | report (s pass objects) (happly : pass.opts.apply = false) : Move s (.listed pass objects) s .idle
  | readKeys (s pass objects keys) (happly : pass.opts.apply = true)
      (hkeys : keys = (classify objects s.knownStorageKeys (pass.now - pass.opts.minAgeHours * hour)).orphanKeys) :
      Move s (.listed pass objects) (s.reap (keys.take DELETE_OBJECTS_MAX_KEYS)) (.reaping pass keys)
  | chunkReaped (s pass keys) (hne : keys ≠ []) :
      Move s (.reaping pass keys)
        ((s.deleteObjects (keys.take DELETE_OBJECTS_MAX_KEYS)).reap
          ((keys.drop DELETE_OBJECTS_MAX_KEYS).take DELETE_OBJECTS_MAX_KEYS))
        (.reaping pass (keys.drop DELETE_OBJECTS_MAX_KEYS))
  | giveUp (s pc) : Move s pc (s.abandon pc) .idle

/-- Time passes, a call to the storage is carried out late, events and users come. -/
inductive Env : Site K U E A → Site K U E A → Prop where
  | tick (s clock) (h : s.clock ≤ clock) : Env s { s with clock := clock }
  | land (s k size stamp) (h : k ∈ s.astray) (hput : s.putAt k = none) (hstamp : ∀ m ∈ stamp, m = s.clock) :
      Env s (s.putObject k size stamp)
  | vanish (s k) (h : k ∈ s.asked ∨ k ∈ s.reaped) : Env s (s.deleteObjects [k])
  | newEvent (s e) : Env s { s with events := insert e s.events }
  | newUser (s u) (h : s.users.get u = none) : Env s { s with users := s.users.set u (some ⟨false, none⟩) }

def system : System (Site K U E A) (Pc K U E A) (Row K U E) := ⟨Env, Move startsWith limit, Pc.held⟩

/-- The site before any request: whatever the rows name and the bucket holds, each key named once. -/
structure Start (s : Site K U E A) : Prop where
  once : ∀ row row' k, s.name row = some k → s.name row' = some k → row = row'
  named : ∀ k, s.Named k → k ∈ s.spent
  spent : ∀ k ∈ s.spent, k ∈ s.issued
  put : ∀ k o, s.objects.get k = some o → ∃ t, s.putAt k = some t ∧ ∀ m ∈ o.lastModified, m = t
  putIssued : ∀ k, s.putAt k ≠ none → k ∈ s.issued
  astray : ∀ k ∈ s.astray, k ∈ s.issued
  asked : s.asked = ∅
  reaped : s.reaped = ∅

end Home.Storage
