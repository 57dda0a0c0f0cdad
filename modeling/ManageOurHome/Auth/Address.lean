import ManageOurHome.Auth.PasswordChange
import ManageOurHome.Auth.Verification
import ManageOurHome.Error

/-! @src apps/api/src/auth/mod.rs, apps/api/src/auth/oauth_google.rs, apps/api/src/auth/session.rs | layer:model |
    family:authentication

    One address, and the two who play on it: a stranger who reads none of its mail, and its holder. A request is a
    function of what is stored; who asked for it decides which links and sessions they have.

        register ─▶ unverified, its password kept   resend ─▶ link   verify_email ─▶ verified
        Google   ─▶ the identity bound, or a verified account without a password
        login    ─▶ a session, once the password and the address are verified -/

namespace Home.Auth.Address

open Verification PasswordChange

inductive Party where
  | stranger | holder
  deriving DecidableEq, Repr

/-- A row of `users`, with its rows of `oauth_identities`. `full` says that the age is declared and the terms
    accepted. -/
structure User (H G : Type) where
  passwordHash : Option H
  emailVerified : Bool
  full : Bool
  identities : List G
  deriving DecidableEq, Repr

/-- A session not revoked, and who carries its cookie. -/
structure Session (S : Type) where
  id : S
  party : Party
  deriving DecidableEq, Repr

/-- What is stored of the address; the links mailed in answer to a `resend_verification` or a `set_password` of the
    holder's, which alone they follow; and whether they have signed in with Google or reset the password. -/
structure State (H T S G : Type) where
  clock : ℤ
  user : Option (User H G)
  verifications : List (Token T)
  resets : List (ResetToken T)
  sessions : List (Session S)
  followed : List T
  entered : Bool

def passwordResetTtl : ℤ := hour

variable {H T S G : Type}

/-- An address nobody has registered. -/
def State.empty (clock : ℤ) : State H T S G := ⟨clock, none, [], [], [], [], false⟩

/-- A link inserted, beside those there are. -/
def State.insertLink (s : State H T S G) (token : T) (issued : Bool) (followed : Bool) : State H T S G :=
  { s with
    verifications := ⟨token, s.clock, s.clock + emailVerificationTtl, false, issued⟩ :: s.verifications
    followed := if followed then token :: s.followed else s.followed }

/-- `create_account`. -/
def createAccount (s : State H T S G) (hash : H) (token : T) : State H T S G :=
  { s with user := some ⟨some hash, false, true, []⟩ }.insertLink token false false

/-- `AuthUser`: a full session. -/
def authUser [DecidableEq S] (s : State H T S G) (session : S) : Except AppError (Session S × User H G) :=
  match s.sessions.find? (fun x => x.id = session), s.user with
  | some x, some user => if user.full then .ok (x, user) else .error .AgeNotDeclared
  | _, _ => .error .Unauthorized

section

variable [DecidableEq T]

def issueVerification (s : State H T S G) (party : Option Party) (token : T) : State H T S G :=
  if recent s.clock s.verifications then s
  else { s with verifications := consume (outstanding s.verifications) s.verifications }.insertLink token true
    (decide (party = some Party.holder))

/-- `register`; its link is one nobody asked to have again. -/
def register (crypto : Crypto H) (s : State H T S G) (password : Text) (hash : H) (token : T) :
    Except AppError (State H T S G) :=
  match validatePassword crypto password with
  | .error code => .error (.Unprocessable code)
  | .ok () => match s.user with
    | none => .ok (createAccount s hash token)
    | some user => .ok (if user.emailVerified then s else issueVerification s none token)

/-- `resend_verification`. -/
def resendVerification (s : State H T S G) (party : Party) (token : T) : State H T S G :=
  match s.user with
  | some user => if user.emailVerified then s else issueVerification s (some party) token
  | none => s

def verifyEmail (s : State H T S G) (token : T) : Except AppError (State H T S G) :=
  match s.verifications.find? (fun r => r.token = token) with
  | none => .error .NotFound
  | some r =>
    if r.consumed then .error .Gone
    else if r.expiresAt < s.clock then .error .Gone
    else .ok { s with
      verifications := consume [token] s.verifications
      user := s.user.map fun user => { user with emailVerified := true } }

end

/-- `login_inner`: the session is the party's who submitted the password. -/
def login (crypto : Crypto H) (submits : Text → Party) (s : State H T S G) (password : Text) (session : S) :
    Except AppError (State H T S G) :=
  match s.user with
  | none => .error .Unauthorized
  | some user => match user.passwordHash with
    | none => .error .Unauthorized
    | some hash =>
      if crypto.verifyPassword password hash = false then .error .Unauthorized
      else if user.emailVerified = false then .error .Unauthorized
      else .ok { s with sessions := ⟨session, submits password⟩ :: s.sessions }

/-- `forgot_password`. -/
def forgotPassword (s : State H T S G) (token : T) : State H T S G :=
  match s.user with
  | some _ => { s with resets := ⟨token, s.clock + passwordResetTtl⟩ :: s.resets }
  | none => s

def resetPassword [DecidableEq T] (crypto : Crypto H) (s : State H T S G) (party : Party) (token : T)
    (newPassword : Text) (hash : H) : Except AppError (State H T S G) :=
  match s.resets.find? (fun r => r.token = token) with
  | none => .error .NotFound
  | some r =>
    if r.expiresAt < s.clock then .error .Gone
    else match validatePassword crypto newPassword with
      | .error code => .error (.Unprocessable code)
      | .ok () => .ok { s with
        resets := s.resets.filter fun r => r.token ≠ token
        user := s.user.map fun user => { user with passwordHash := some hash }
        sessions := []
        entered := s.entered || decide (party = Party.holder) }

section

variable [DecidableEq S]

def setPassword (crypto : Crypto H) (s : State H T S G) (session : S) (newPassword : Text) (hash : H) (token : T) :
    Except AppError (State H T S G) :=
  match authUser s session with
  | .error e => .error e
  | .ok (x, user) =>
    if user.passwordHash.isSome then .error (.Conflict "password_already_set")
    else match validatePassword crypto newPassword with
      | .error code => .error (.Unprocessable code)
      | .ok () => .ok <|
        { s with user := some { user with passwordHash := some hash, emailVerified := false } }.insertLink token false
          (decide (x.party = Party.holder))

def changePassword (crypto : Crypto H) (s : State H T S G) (session : S) (currentPassword newPassword : Text)
    (hash : H) : Except AppError (State H T S G) :=
  match authUser s session with
  | .error e => .error e
  | .ok (_, user) => match user.passwordHash with
    | none => .error (.Unprocessable "no_password_set")
    | some current =>
      if crypto.verifyPassword currentPassword current = false then .error .Unauthorized
      else match validatePassword crypto newPassword with
        | .error code => .error (.Unprocessable code)
        | .ok () => .ok { s with
          user := some { user with passwordHash := some hash }
          sessions := s.sessions.filter fun x => x.id = session }

/-- The age declared and the terms accepted, from any session. -/
def declare (s : State H T S G) (session : S) : Except AppError (State H T S G) :=
  if s.sessions.any fun x => x.id = session then
    .ok { s with user := s.user.map fun user => { user with full := true } }
  else .error .Unauthorized

end

/-- `sign_in_profile`, with a profile of the address: the holder's. -/
def signInProfile [DecidableEq G] (s : State H T S G) (sub : G) (session : S) : State H T S G :=
  { s with
    user := some <| match s.user with
      | none => ⟨none, true, false, [sub]⟩
      | some user => if sub ∈ user.identities then user else { user with identities := sub :: user.identities }
    sessions := ⟨session, .holder⟩ :: s.sessions
    entered := true }

/-- What may be asked, with what the server draws to answer it. -/
inductive Act (H T S G : Type) where
  | register (password : Text) (hash : H) (token : T)
  | resendVerification (party : Party) (token : T)
  | verifyEmail (party : Party) (token : T)
  | login (password : Text) (session : S)
  | forgotPassword (token : T)
  | resetPassword (token : T) (newPassword : Text) (hash : H)
  | setPassword (session : S) (newPassword : Text) (hash : H) (token : T)
  | changePassword (session : S) (currentPassword newPassword : Text) (hash : H)
  | signInProfile (sub : G) (session : S)
  | declare (session : S)
  /-- A logout, or a session past its time. -/
  | endSession (session : S)
  | wait (clock : ℤ)

variable [DecidableEq T] [DecidableEq S] [DecidableEq G]

def play (crypto : Crypto H) (submits : Text → Party) (s : State H T S G) : Act H T S G → Except AppError (State H T S G)
  | .register password hash token => register crypto s password hash token
  | .resendVerification party token => .ok (resendVerification s party token)
  | .verifyEmail _ token => verifyEmail s token
  | .login password session => login crypto submits s password session
  | .forgotPassword token => .ok (forgotPassword s token)
  | .resetPassword token newPassword hash => resetPassword crypto s (submits newPassword) token newPassword hash
  | .setPassword session newPassword hash token => setPassword crypto s session newPassword hash token
  | .changePassword session current newPassword hash => changePassword crypto s session current newPassword hash
  | .signInProfile sub session => .ok (signInProfile s sub session)
  | .declare session => declare s session
  | .endSession session => .ok { s with sessions := s.sessions.filter fun x => x.id ≠ session }
  | .wait clock => .ok { s with clock := max s.clock clock }

/-- A refused request changes nothing. -/
def step (crypto : Crypto H) (submits : Text → Party) (s : State H T S G) (a : Act H T S G) : State H T S G :=
  match play crypto submits s a with
  | .ok s' => s'
  | .error _ => s

/-- What each party can ask, and the server draw: a password is submitted by one of the two; the stranger has none of
    the links, the holder follows those of `followed`; a session is used by who carries it; what is drawn is new. -/
def Allowed (crypto : Crypto H) (submits : Text → Party) (s : State H T S G) : Act H T S G → Prop
  | .register password hash token => crypto.hashPassword password hash ∧ token ∉ s.verifications.map Token.token
  | .resendVerification _ token => token ∉ s.verifications.map Token.token
  | .verifyEmail party token =>
    (party = .holder ∧ token ∈ s.followed) ∨ token ∉ s.verifications.map Token.token
  | .login _ session => session ∉ s.sessions.map Session.id
  | .forgotPassword token => token ∉ s.resets.map ResetToken.token
  | .resetPassword token newPassword hash => crypto.hashPassword newPassword hash ∧
    (submits newPassword = .holder ∨ token ∉ s.resets.map ResetToken.token)
  | .setPassword session newPassword hash token => crypto.hashPassword newPassword hash ∧
    (∀ x ∈ s.sessions, x.id = session → x.party = submits newPassword) ∧ token ∉ s.verifications.map Token.token
  | .changePassword session current newPassword hash => crypto.hashPassword newPassword hash ∧
    submits current = submits newPassword ∧ ∀ x ∈ s.sessions, x.id = session → x.party = submits newPassword
  | .signInProfile _ session => session ∉ s.sessions.map Session.id
  | .declare _ | .endSession _ | .wait _ => True

end Home.Auth.Address
