import ManageOurHome.Auth.Passwords
import ManageOurHome.Lib.RowLocks

/-! @src apps/api/src/auth/mod.rs, apps/api/src/auth/session.rs | layer:model | family:authentication

    The password and the sessions of one active account, statement by statement.

        login:   SELECT password_hash ─▶ argon2 ─▶ INSERT session
        reset:   SELECT token FOR UPDATE ─▶ argon2 ─▶ DELETE token ─▶ UPDATE users ─▶ commit ─┐
        change:  SELECT password_hash ─▶ argon2 ─▶ UPDATE users ─▶ commit ────────────────────┤
                                                             UPDATE sessions: revoked ─▶ 200 ◀┘

    The passwords are counted as they are committed: a login is known by the one it verified. -/

namespace Home.Auth.PasswordChange

open RowLocks

/-- A row of `sessions`. `login` is the password verified by the login that opened it: the how-manieth of the
    account's. A session opened otherwise has none. -/
structure Session (S : Type) where
  id : S
  revoked : Bool
  login : Option ℕ
  deriving DecidableEq, Repr

/-- A row of `password_reset_tokens`, under its hash. -/
structure ResetToken (T : Type) where
  token : T
  expiresAt : ℤ
  deriving DecidableEq, Repr

/-- A password committed: the how-manieth, and the session its revocation keeps. -/
structure Change (S : Type) where
  password : ℕ
  kept : Option S
  deriving DecidableEq, Repr

/-- What is committed, of the account. The last three are what its history holds: the tokens that set a password, and
    the changes whose revocation has run, and whose request has answered 200. -/
structure Db (H T S : Type) where
  clock : ℤ
  emailVerified : Bool
  /-- Every `password_hash` the account has had, the current one first. -/
  hashes : List H
  resets : List (ResetToken T)
  sessions : List (Session S)
  spent : List T
  cutOff : List (Change S)
  answered : List (Change S)

/-- Where a request is, with the variables it holds there. -/
inductive Pc (H T S : Type) where
  | idle
  -- `login_inner`
  | verifying (password : Text) (hash : Option H) (emailVerified : Bool) (seen : ℕ)
  | opening (seen : ℕ)
  -- `reset_password`
  | resetting (token : T) (newPassword : Text)
  | found (token : T) (newPassword : Text) (expiresAt : ℤ)
  | deleting (token : T) (hash : H)
  | updating (token : T) (hash : H)
  -- `change_password`
  | authenticated (session : S) (currentPassword newPassword : Text)
  | checking (session : S) (currentPassword newPassword : Text) (hash : Option H)
  | writing (session : S) (hash : H)
  -- the `UPDATE` of the account's row is made, and not committed
  | written (token : Option T) (hash : H) (kept : Option S)
  | revoking (change : Change S)
  | answering (change : Change S)

inductive Lock (T : Type) where
  | account
  | reset (token : T)
  deriving DecidableEq

variable {H T S : Type}

/-- The rows a request holds. -/
def Pc.held : Pc H T S → List (Lock T × Mode)
  | .found token _ _ | .deleting token _ | .updating token _ => [(.reset token, .update)]
  | .written (some token) _ _ => [(.account, .noKeyUpdate), (.reset token, .update)]
  | .written none _ _ => [(.account, .noKeyUpdate)]
  | _ => []

/-- What the commit of a password leaves: the token that set it is gone. -/
def Db.commit [DecidableEq T] (s : Db H T S) (token : Option T) (hash : H) : Db H T S :=
  { s with
    hashes := hash :: s.hashes
    resets := s.resets.filter fun r => some r.token ≠ token
    spent := token.toList ++ s.spent }

/-- `revoke_all_sessions`. -/
def revokeAllSessions [DecidableEq S] (kept : Option S) (sessions : List (Session S)) : List (Session S) :=
  sessions.map fun x => if x.revoked ∨ some x.id = kept then x else { x with revoked := true }

/-- `insert_session`, for a login. -/
def Db.insertSession (s : Db H T S) (id : S) (seen : ℕ) : Db H T S :=
  { s with sessions := ⟨id, false, some seen⟩ :: s.sessions }

variable [DecidableEq T] [DecidableEq S]

/-- One statement, or what lies between two. `opens` says what has to hold for a login to insert its session. -/
inductive Move (crypto : Crypto H) (opens : Db H T S → ℕ → Prop) : Db H T S → Pc H T S → Db H T S → Pc H T S → Prop where
  /-- A refusal, an error, or a connection lost. -/
  | giveUp (s : Db H T S) (l : Pc H T S) : Move crypto opens s l s .idle
  | lookup (s : Db H T S) (password : Text) :
      Move crypto opens s .idle s (.verifying password s.hashes.head? s.emailVerified s.hashes.length)
  | verify (s : Db H T S) (password : Text) (hash : H) (seen : ℕ) (h : crypto.verifyPassword password hash = true) :
      Move crypto opens s (.verifying password (some hash) true seen) s (.opening seen)
  | insertSession (s : Db H T S) (seen : ℕ) (id : S) (hnew : id ∉ s.sessions.map Session.id) (hopens : opens s seen) :
      Move crypto opens s (.opening seen) (s.insertSession id seen) .idle
  | reset (s : Db H T S) (token : T) (newPassword : Text) : Move crypto opens s .idle s (.resetting token newPassword)
  | lockToken (s : Db H T S) (token : T) (newPassword : Text) (r : ResetToken T) (hr : r ∈ s.resets)
      (htoken : r.token = token) :
      Move crypto opens s (.resetting token newPassword) s (.found token newPassword r.expiresAt)
  | hashNew (s : Db H T S) (token : T) (newPassword : Text) (expiresAt : ℤ) (hash : H) (hexpires : ¬expiresAt < s.clock)
      (hvalid : validatePassword crypto newPassword = .ok ()) (hhash : crypto.hashPassword newPassword hash) :
      Move crypto opens s (.found token newPassword expiresAt) s (.deleting token hash)
  | delete (s : Db H T S) (token : T) (hash : H) : Move crypto opens s (.deleting token hash) s (.updating token hash)
  | update (s : Db H T S) (token : T) (hash : H) :
      Move crypto opens s (.updating token hash) s (.written (some token) hash none)
  | authenticate (s : Db H T S) (x : Session S) (currentPassword newPassword : Text) (hx : x ∈ s.sessions)
      (hlive : x.revoked = false) : Move crypto opens s .idle s (.authenticated x.id currentPassword newPassword)
  | readHash (s : Db H T S) (session : S) (currentPassword newPassword : Text) :
      Move crypto opens s (.authenticated session currentPassword newPassword) s
        (.checking session currentPassword newPassword s.hashes.head?)
  | checkCurrent (s : Db H T S) (session : S) (currentPassword newPassword : Text) (hash newHash : H)
      (h : crypto.verifyPassword currentPassword hash = true) (hvalid : validatePassword crypto newPassword = .ok ())
      (hhash : crypto.hashPassword newPassword newHash) :
      Move crypto opens s (.checking session currentPassword newPassword (some hash)) s (.writing session newHash)
  | write (s : Db H T S) (session : S) (hash : H) :
      Move crypto opens s (.writing session hash) s (.written none hash (some session))
  | commit (s : Db H T S) (token : Option T) (hash : H) (kept : Option S) :
      Move crypto opens s (.written token hash kept) (s.commit token hash) (.revoking ⟨s.hashes.length + 1, kept⟩)
  | revoke (s : Db H T S) (change : Change S) :
      Move crypto opens s (.revoking change)
        { s with sessions := revokeAllSessions change.kept s.sessions, cutOff := change :: s.cutOff } (.answering change)
  | answer (s : Db H T S) (change : Change S) :
      Move crypto opens s (.answering change) { s with answered := change :: s.answered } .idle

/-- Time passes, a reset is mailed, the address is verified, a session is opened without a password or ended. -/
inductive Env : Db H T S → Db H T S → Prop where
  | tick (s : Db H T S) (clock : ℤ) (h : s.clock ≤ clock) : Env s { s with clock := clock }
  | mailed (s : Db H T S) (r : ResetToken T) (hnew : r.token ∉ s.spent) : Env s { s with resets := r :: s.resets }
  | verified (s : Db H T S) (emailVerified : Bool) : Env s { s with emailVerified := emailVerified }
  | opened (s : Db H T S) (id : S) (hnew : id ∉ s.sessions.map Session.id) :
      Env s { s with sessions := ⟨id, false, none⟩ :: s.sessions }
  | ended (s : Db H T S) (id : S) :
      Env s { s with sessions := s.sessions.map fun x => if x.id = id then { x with revoked := true } else x }

def system (crypto : Crypto H) (opens : Db H T S → ℕ → Prop) : System (Db H T S) (Pc H T S) (Lock T) :=
  ⟨Env, Move crypto opens, Pc.held⟩

end Home.Auth.PasswordChange
