import ManageOurHome.Account.PurgeClock
import ManageOurHome.Lib.RowLocks

/-! @src apps/api/src/jobs/account_purge.rs, apps/api/src/groups/mod.rs, apps/api/src/notifications/preferences.rs, apps/api/src/auth/session.rs |
    layer:model | family:account

    The personal rows of one account, the requests that write them and the purge that deletes them, statement by
    statement. A row inserted references the account, and holds its `users` row `FOR KEY SHARE`; the purge holds it
    `FOR UPDATE`. The session of a request is checked before its transaction begins.

        session checked ─▶ begin ─▶ … ─▶ INSERT (key share) ─▶ commit
        purge: begin ─▶ FOR UPDATE ─▶ due? ─▶ DELETE, table by table ─▶ UPDATE users ─▶ commit -/

namespace Home.Account.PersonalRows

open RowLocks

/-- The tables the purge deletes the rows of. -/
inductive Table where
  | groupMembers | oauthIdentities | sessions | pushSubscriptions | notifications | emailVerificationTokens
  | passwordResetTokens | stockExpiryAnnouncements | messageReadState | eventAssignees
  | accountReactivationRequests | auditLog | invitations | calendarImports
  deriving DecidableEq, Repr

/-- In the order the purge takes them. -/
def purgedTables : List Table :=
  [.groupMembers, .oauthIdentities, .sessions, .pushSubscriptions, .notifications, .emailVerificationTokens,
    .passwordResetTokens, .stockExpiryAnnouncements, .messageReadState, .eventAssignees,
    .accountReactivationRequests, .auditLog, .invitations, .calendarImports]

/-- A row of the account: a membership by its family, a device by its endpoint, any other by its id. -/
abbrev Row (R : Type) := Table × R

/-- An invitation someone else has sent. -/
structure Invitation (R T : Type) where
  token : T
  group : R
  expiresAt : ℤ
  deriving DecidableEq, Repr

structure Settings where
  reminderChannel : String
  expiryDigestHour : ℕ
  deriving DecidableEq, Repr

/-- What is committed: the account and what references it. -/
structure Db (R T : Type) where
  clock : ℤ
  account : PurgeClock
  settings : Settings
  rows : List (Row R)
  invitations : List (Invitation R T)

inductive Request (R T : Type) where
  | acceptInvitation (token : T)
  | subscribe (endpoint : R)
  | updateSettings (channel : String) (digestHour : Option ℕ)
  | openSession (session : R)
  /-- Any other: the rows it inserts, in one transaction. -/
  | other (rows : List (Row R))
  deriving DecidableEq, Repr

/-- Where a request or a purge is, with the variables it holds there. -/
inductive Pc (R T : Type) where
  | idle
  | checked (r : Request R T)
  | found (token : T) (group : R)
  | held (token : T) (group : R) (expiresAt : ℤ)
  | consuming (token : T) (group : R)
  | joining (group : R)
  | subscribing (endpoint : R)
  | trimming
  | done
  | purging (now : ℤ)
  /-- `row` is what the account becomes, `left` the tables still to delete from. -/
  | deleting (row : PurgeClock) (left : List Table)

/-- What a transaction holds: the `users` row, a row of the account, an invitation. -/
inductive Lock (R T : Type) where
  | account
  | row (k : Row R)
  | invitation (token : T)
  deriving DecidableEq

/-- A transaction under way, with what it has written. -/
structure Tx (R T : Type) where
  at_ : Pc R T
  inserted : List (Row R)
  deleted : List (Row R)
  spent : List T
  settings : Option (String × Option ℕ)
  held : List (Lock R T × Mode)

variable {R T : Type}

/-- Nothing under way. -/
def Tx.idle : Tx R T := ⟨.idle, [], [], [], none, []⟩

/-- The session is known and its account not deleted; a login has only the account to go by. -/
def authorised (s : Db R T) : Request R T → Bool
  | .openSession _ => s.account.deletedAt.isNone
  | _ => s.account.deletedAt.isNone ∧ s.rows.any fun k => k.1 = .sessions

variable [DecidableEq R] [DecidableEq T]

/-- The rows a statement of `t` sees. -/
def Tx.visible (t : Tx R T) (s : Db R T) : List (Row R) := s.rows.filter (fun k => k ∉ t.deleted) ++ t.inserted

/-- `INSERT`, and the key share the foreign key takes. -/
def Tx.insert (t : Tx R T) (k : Row R) (next : Pc R T) : Tx R T :=
  { t with at_ := next, inserted := k :: t.inserted, held := (.account, .keyShare) :: (.row k, .update) :: t.held }

/-- `INSERT … ON CONFLICT`: the row that is there is kept. -/
def Tx.insertUnless (t : Tx R T) (s : Db R T) (k : Row R) (next : Pc R T) : Tx R T :=
  if k ∈ t.visible s then { t with at_ := next } else t.insert k next

/-- What a commit of `t` leaves. -/
def Db.commit (s : Db R T) (t : Tx R T) : Db R T :=
  { s with
    settings := t.settings.elim s.settings fun (channel, hour) => ⟨channel, hour.getD s.settings.expiryDigestHour⟩
    rows := t.visible s
    invitations := s.invitations.filter fun i => i.token ∉ t.spent }

/-- One statement. `live` says what has to hold for a row to be inserted. -/
inductive Move (chrono : Chrono) (live : Db R T → Prop) : Db R T → Tx R T → Db R T → Tx R T → Prop where
  | check (s : Db R T) (r : Request R T) (h : authorised s r = true) :
      Move chrono live s .idle s { Tx.idle with at_ := .checked r }
  /-- An error, a refusal or a connection lost. -/
  | giveUp (s : Db R T) (t : Tx R T) : Move chrono live s t s .idle
  -- `accept_invitation`: looked up in a transaction of its own
  | lookup (s : Db R T) (t : Tx R T) (token : T) (i : Invitation R T) (hat : t.at_ = .checked (.acceptInvitation token))
      (h : s.invitations.find? (fun i => i.token = token) = some i) :
      Move chrono live s t s { t with at_ := .found token i.group }
  | hold (s : Db R T) (t : Tx R T) (token : T) (group : R) (i : Invitation R T) (hat : t.at_ = .found token group)
      (h : s.invitations.find? (fun i => i.token = token) = some i) :
      Move chrono live s t s
        { t with at_ := .held token group i.expiresAt, held := (.invitation token, .update) :: t.held }
  | unexpired (s : Db R T) (t : Tx R T) (token : T) (group : R) (expiresAt : ℤ)
      (hat : t.at_ = .held token group expiresAt) (h : ¬expiresAt < s.clock) :
      Move chrono live s t s { t with at_ := .consuming token group }
  | consume (s : Db R T) (t : Tx R T) (token : T) (group : R) (hat : t.at_ = .consuming token group) :
      Move chrono live s t s { t with at_ := .joining group, spent := token :: t.spent }
  | join (s : Db R T) (t : Tx R T) (group : R) (hat : t.at_ = .joining group)
      (hlive : (.groupMembers, group) ∉ t.visible s → live s) :
      Move chrono live s t s (t.insertUnless s (.groupMembers, group) .done)
  -- `subscribe`: the account locked, the device registered, those beyond the ceiling forgotten
  | lockOwn (s : Db R T) (t : Tx R T) (endpoint : R) (hat : t.at_ = .checked (.subscribe endpoint)) :
      Move chrono live s t s { t with at_ := .subscribing endpoint, held := (.account, .update) :: t.held }
  | register (s : Db R T) (t : Tx R T) (endpoint : R) (hat : t.at_ = .subscribing endpoint)
      (hlive : (.pushSubscriptions, endpoint) ∉ t.visible s → live s) :
      Move chrono live s t s (t.insertUnless s (.pushSubscriptions, endpoint) .trimming)
  | trim (s : Db R T) (t : Tx R T) (beyond : List R) (hat : t.at_ = .trimming) :
      Move chrono live s t s { t with
        at_ := .done
        inserted := t.inserted.filter fun k => k ∉ beyond.map (Prod.mk .pushSubscriptions)
        deleted := beyond.map (Prod.mk .pushSubscriptions) ++ t.deleted }
  | updateSettings (s : Db R T) (t : Tx R T) (channel : String) (hour : Option ℕ)
      (hat : t.at_ = .checked (.updateSettings channel hour)) :
      Move chrono live s t s
        { t with at_ := .done, settings := some (channel, hour), held := (.account, .noKeyUpdate) :: t.held }
  | openSession (s : Db R T) (t : Tx R T) (session : R) (hat : t.at_ = .checked (.openSession session)) (hlive : live s)
      (hnew : (.sessions, session) ∉ t.visible s) :
      Move chrono live s t s (t.insert (.sessions, session) .done)
  | insert (s : Db R T) (t : Tx R T) (k : Row R) (rows : List (Row R)) (hat : t.at_ = .checked (.other (k :: rows)))
      (hlive : live s) (hnew : k ∉ t.visible s) : Move chrono live s t s (t.insert k (.checked (.other rows)))
  | inserted (s : Db R T) (t : Tx R T) (hat : t.at_ = .checked (.other [])) :
      Move chrono live s t s { t with at_ := .done }
  | commit (s : Db R T) (t : Tx R T) (hat : t.at_ = .done) : Move chrono live s t (s.commit t) .idle
  -- `purge_account`
  | begin (s : Db R T) : Move chrono live s .idle s { Tx.idle with at_ := .purging s.clock }
  | judge (s : Db R T) (t : Tx R T) (now : ℤ) (row : PurgeClock) (hat : t.at_ = .purging now)
      (h : purgeAccount chrono now s.account = some row) :
      Move chrono live s t s { t with at_ := .deleting row purgedTables, held := (.account, .update) :: t.held }
  | delete (s : Db R T) (t : Tx R T) (row : PurgeClock) (table : Table) (left : List Table)
      (hat : t.at_ = .deleting row (table :: left)) :
      Move chrono live s t s
        { t with at_ := .deleting row left, deleted := s.rows.filter (fun k => k.1 = table) ++ t.deleted }
  | purged (s : Db R T) (t : Tx R T) (row : PurgeClock) (hat : t.at_ = .deleting row []) :
      Move chrono live s t { s.commit t with account := row } .idle

/-- Time passes, others invite, and others take rows of the account away. -/
inductive Env : Db R T → Db R T → Prop where
  | tick (s : Db R T) (clock : ℤ) (h : s.clock ≤ clock) : Env s { s with clock := clock }
  | invited (s : Db R T) (i : Invitation R T) : Env s { s with invitations := i :: s.invitations }
  | removed (s : Db R T) (k : Row R) : Env s { s with rows := s.rows.filter (· ≠ k) }

def system (chrono : Chrono) (live : Db R T → Prop) : System (Db R T) (Tx R T) (Lock R T) :=
  ⟨Env, Move chrono live, Tx.held⟩

end Home.Account.PersonalRows
