import Mathlib.Algebra.Group.Nat.Defs
import ManageOurHome.Error
import ManageOurHome.Lib.Atomic
import ManageOurHome.Text
import ManageOurHome.Time

/-! @src apps/api/src/auth/google_id_token.rs | layer:model | family:authentication

    Google sign-in by ID token. A nonce is in three places: the cookie of the browser it was issued to, the token Google
    writes it into, and a table, under its hash, that it leaves when it is spent. Each statement has its `now()` from the
    moment it begins, and the key set may be fetched between the reading of the cookie and the spending of the nonce. The
    `jsonwebtoken` crate is not part of the repository: `Jwt` is what the code asks of it.

        issue_nonce  mint ─▶ now() ─▶ DELETE expired, INSERT ─▶ cookie set
        sign_in      cookie read, clock read ─▶ verify ─▶ now() ─▶ DELETE … RETURNING ─▶ session -/

namespace Home.Auth.GoogleIdToken

/-! ### The token -/

/-- Why an ID token was refused. -/
inductive Rejection where
  | Malformed | UnknownKey | BadSignature | WrongIssuer | WrongAudience | Expired | NonceMismatch | EmailNotVerified
  deriving DecidableEq

def ALLOWED_ISSUERS : List Text := ["accounts.google.com".toList, "https://accounts.google.com".toList]

/-- How far past its `exp` a token is still accepted, in seconds. -/
def CLOCK_SKEW : ℕ := 60

def NONCE_TTL : ℤ := 5 * minute

structure IdTokenClaims where
  iss : Text
  aud : Text
  exp : ℕ
  sub : Text
  email : Text
  emailVerified : Bool
  nonce : Option Text
  name : Option Text
  deriving DecidableEq

structure GoogleProfile where
  sub : Text
  email : Text
  name : Option Text
  deriving DecidableEq

inductive Algorithm where
  | RS256
  | other (name : Text)
  deriving DecidableEq

structure Header where
  alg : Algorithm
  kid : Option Text
  deriving DecidableEq

inductive JwtError where
  | InvalidSignature | other
  deriving DecidableEq

/-- The `jsonwebtoken` crate. -/
structure Jwt where
  Key : Type
  decodeHeader : Text → Option Header
  decode : Text → Key → Except JwtError IdTokenClaims

inductive VerifyError where
  | Rejected (reason : Rejection)
  | Unavailable
  deriving DecidableEq

variable (jwt : Jwt)

def keyId (token : Text) : Except Rejection Text :=
  match jwt.decodeHeader token with
  | none => .error .Malformed
  | some header =>
    if header.alg ≠ .RS256 then .error .Malformed
    else
      match header.kid.filter (· ≠ []) with
      | none => .error .Malformed
      | some kid => .ok kid

/-- `u64::saturating_add`. -/
def saturatingAdd (a b : ℕ) : ℕ := min (a + b) (2 ^ 64 - 1)

/-- Whether the token carries the nonce of the cookie: none, or an empty one, matches nothing. -/
def carries : Option Text → Option Text → Bool
  | some expected, some nonce => expected ≠ [] && expected = nonce
  | _, _ => false

def validateClaims (claims : IdTokenClaims) (audience : Text) (expectedNonce : Option Text) (now : ℕ) :
    Except Rejection GoogleProfile :=
  if claims.iss ∉ ALLOWED_ISSUERS then .error .WrongIssuer
  else if claims.aud ≠ audience then .error .WrongAudience
  else if saturatingAdd claims.exp CLOCK_SKEW < now then .error .Expired
  else if !carries expectedNonce claims.nonce then .error .NonceMismatch
  else if !claims.emailVerified then .error .EmailNotVerified
  else .ok ⟨claims.sub, claims.email, claims.name⟩

/-- `IdTokenVerifier::verify`, with what the key set answers. -/
def verify (jwks : Text → Except Unit (Option jwt.Key)) (audience token : Text) (expectedNonce : Option Text) (now : ℕ) :
    Except VerifyError GoogleProfile :=
  match keyId jwt token with
  | .error reason => .error (.Rejected reason)
  | .ok kid =>
    match jwks kid with
    | .error () => .error .Unavailable
    | .ok none => .error (.Rejected .UnknownKey)
    | .ok (some key) =>
      match jwt.decode token key with
      | .error .InvalidSignature => .error (.Rejected .BadSignature)
      | .error .other => .error (.Rejected .Malformed)
      | .ok claims =>
        match validateClaims claims audience expectedNonce now with
        | .error reason => .error (.Rejected reason)
        | .ok profile => .ok profile

/-! ### The requests -/

variable {B R H : Type}

/-- A nonce issued: to which browser, and the `now()` of the statement. -/
structure Issue (B : Type) where
  nonce : Text
  browser : B
  at_ : ℤ

/-- A nonce spent: by which request, of which browser, with what its cookie held, for which token; what the server's clock
    read, and the `now()` of the statement. -/
structure SignIn (B R : Type) where
  request : R
  browser : B
  nonce : Text
  token : Text
  now : ℕ
  at_ : ℤ

/-- What is shared: the clock and the table of the database, and the cookies. The other fields keep what has happened. -/
structure Db (B R H : Type) where
  clock : ℤ
  table : H → Option ℤ
  cookies : B → Option Text
  minted : List (Text × R)
  issues : List (Issue B)
  spent : List (SignIn B R)
  sessions : List (SignIn B R)

/-- Where a request is, with the variables it holds there. -/
inductive Pc (B R H : Type) where
  | idle (request : R)
  -- `issue_nonce`
  | minted (request : R) (browser : B) (nonce : Text)
  | issuing (request : R) (browser : B) (nonce : Text) (now : ℤ)
  | answering (request : R) (browser : B) (nonce : Text)
  -- `sign_in`
  | posted (request : R) (browser : B) (cookie : Option Text) (token : Text) (now : ℕ)
  | verified (request : R) (browser : B) (cookie : Option Text) (token : Text) (now : ℕ)
  | spending (hash : H) (signIn : SignIn B R)
  | spent (signIn : SignIn B R)
  | ended

variable [DecidableEq B] [DecidableEq H] (tokenHash : Text → Option H) (audience : Text)

/-- The clock goes on, and a cookie goes, at its term or by an answer. -/
inductive Env : Db B R H → Db B R H → Prop where
  | tick (s : Db B R H) (clock : ℤ) (h : s.clock ≤ clock) : Env s { s with clock }
  | dropCookie (s : Db B R H) (b : B) : Env s { s with cookies := Function.update s.cookies b none }

inductive Move : Db B R H → Pc B R H → Db B R H → Pc B R H → Prop where
  /-- A refusal, an error, or an answer lost. -/
  | giveUp (s : Db B R H) (l : Pc B R H) : Move s l s .ended
  | mint (s : Db B R H) (r : R) (b : B) (nonce : Text) (h : nonce ∉ s.minted.map Prod.fst) :
      Move s (.idle r) { s with minted := (nonce, r) :: s.minted } (.minted r b nonce)
  | begin_ (s : Db B R H) (r : R) (b : B) (nonce : Text) : Move s (.minted r b nonce) s (.issuing r b nonce s.clock)
  /-- The expired nonces go, and the new one comes. -/
  | insert (s : Db B R H) (r : R) (b : B) (nonce : Text) (now : ℤ) (hash : H) (hhash : tokenHash nonce = some hash)
      (hnew : s.table hash = none) :
      Move s (.issuing r b nonce now)
        { s with
          table := Function.update (fun k => (s.table k).filter (now < ·)) hash (some (now + NONCE_TTL))
          issues := ⟨nonce, b, now⟩ :: s.issues }
        (.answering r b nonce)
  | setCookie (s : Db B R H) (r : R) (b : B) (nonce : Text) :
      Move s (.answering r b nonce) { s with cookies := Function.update s.cookies b (some nonce) } .ended
  /-- A token, from wherever it comes, with the cookie of the browser. -/
  | post (s : Db B R H) (r : R) (b : B) (token : Text) (now : ℕ) :
      Move s (.idle r) s (.posted r b (s.cookies b) token now)
  | verify (s : Db B R H) (r : R) (b : B) (cookie : Option Text) (token : Text) (now : ℕ)
      (jwks : Text → Except Unit (Option jwt.Key)) (profile : GoogleProfile)
      (h : verify jwt jwks audience token cookie now = .ok profile) :
      Move s (.posted r b cookie token now) s (.verified r b cookie token now)
  | hash (s : Db B R H) (r : R) (b : B) (nonce token : Text) (now : ℕ) (hash : H) (h : tokenHash nonce = some hash) :
      Move s (.verified r b (some nonce) token now) s (.spending hash ⟨r, b, nonce, token, now, s.clock⟩)
  /-- `DELETE … WHERE expires_at > now() RETURNING`. -/
  | spend (s : Db B R H) (hash : H) (x : SignIn B R) (expiresAt : ℤ) (h : s.table hash = some expiresAt)
      (hlive : x.at_ < expiresAt) :
      Move s (.spending hash x) { s with table := Function.update s.table hash none, spent := x :: s.spent } (.spent x)
  /-- `sign_in_profile` opens a session. -/
  | signIn (s : Db B R H) (x : SignIn B R) : Move s (.spent x) { s with sessions := x :: s.sessions } .ended

def system : Atomic.System (Db B R H) (Pc B R H) := ⟨Env, Move jwt tokenHash audience⟩

/-- Nothing issued yet. -/
def start (clock : ℤ) : Atomic.World (Db B R H) (Pc B R H) R :=
  ⟨⟨clock, fun _ => none, fun _ => none, [], [], [], []⟩, .idle⟩

end Home.Auth.GoogleIdToken
