import ManageOurHome.Lib.RowLocks
import ManageOurHome.Time

/-! @src apps/api/src/auth/mod.rs | layer:model | family:authentication

    The verification links of one account, statement by statement. `issue_verification` is one statement: it reads the
    tokens once, and from that reading decides whether to issue, and which tokens to consume; each of these it then
    locks in turn, and leaves alone when another has consumed it meanwhile. Nothing locks the account.

        resend, register ─▶ now() ─▶ snapshot: one recent? ─▶ UPDATE, row by row ─▶ INSERT and commit
        verify_email:       SELECT … FOR UPDATE ─▶ UPDATE token ─▶ UPDATE users ─▶ commit -/

namespace Home.Auth.Verification

open RowLocks

def verificationResendCooldown : ℤ := 30 * second

def emailVerificationTtl : ℤ := 24 * hour

/-- A row of `email_verification_tokens`, under its hash. `issued` says that `issue_verification` inserted it. -/
structure Token (T : Type) where
  token : T
  createdAt : ℤ
  expiresAt : ℤ
  consumed : Bool
  issued : Bool
  deriving DecidableEq, Repr

/-- What is committed, of the account; and the tokens that have verified its address, one entry each time. -/
structure Db (T : Type) where
  clock : ℤ
  emailVerified : Bool
  tokens : List (Token T)
  verifiedBy : List T

/-- Where a request is, with the variables it holds there. -/
inductive Pc (T : Type) where
  | idle
  /-- `resend_verification` or `register` has found the account, unverified. -/
  | due
  | drawn (token : T) (expiresAt : ℤ)
  /-- The statement has its `now()`. -/
  | stamped (token : T) (expiresAt now : ℤ)
  /-- It has read the tokens and found none recent: `left` and `taken` are those not consumed it has still to lock, and
      those it holds. -/
  | issuing (token : T) (expiresAt now : ℤ) (left taken : List T)
  -- `verify_email`
  | verifying (token : T)
  | found (token : T) (consumed : Bool) (expiresAt : ℤ)
  | accepted (token : T)
  | written (token : T)

inductive Lock (T : Type) where
  | account
  | token (t : T)
  /-- No row of the database: what `issuing` would hold, were these statements to wait for one another. -/
  | issuing
  deriving DecidableEq

variable {T : Type}

/-- The rows a request holds; `serial` has the statements that issue hold one thing more. -/
def held (serial : Bool) : Pc T → List (Lock T × Mode)
  | .issuing _ _ _ _ taken =>
    (if serial then [(.issuing, .update)] else []) ++ taken.map fun t => (.token t, .noKeyUpdate)
  | .found token _ _ | .accepted token => [(.token token, .update)]
  | .written token => [(.account, .noKeyUpdate), (.token token, .update)]
  | _ => []

/-- `WITH recent`. -/
def recent (now : ℤ) (tokens : List (Token T)) : Bool :=
  tokens.any fun r => now - verificationResendCooldown < r.createdAt

/-- The tokens not consumed. -/
def outstanding (tokens : List (Token T)) : List T := (tokens.filter fun r => !r.consumed).map Token.token

variable [DecidableEq T]

/-- `SET consumed_at = now()`. -/
def consume (taken : List T) (tokens : List (Token T)) : List (Token T) :=
  tokens.map fun r => if r.token ∈ taken then { r with consumed := true } else r

inductive Move : Db T → Pc T → Db T → Pc T → Prop where
  /-- A refusal, an error, or a connection lost. -/
  | giveUp (s : Db T) (l : Pc T) : Move s l s .idle
  | find (s : Db T) (h : s.emailVerified = false) : Move s .idle s .due
  | draw (s : Db T) (token : T) : Move s .due s (.drawn token (s.clock + emailVerificationTtl))
  | stamp (s : Db T) (token : T) (expiresAt : ℤ) : Move s (.drawn token expiresAt) s (.stamped token expiresAt s.clock)
  | skip (s : Db T) (token : T) (expiresAt now : ℤ) (h : recent now s.tokens = true) :
      Move s (.stamped token expiresAt now) s .idle
  | read (s : Db T) (token : T) (expiresAt now : ℤ) (left : List T) (h : recent now s.tokens = false)
      (hleft : left.Perm (outstanding s.tokens)) :
      Move s (.stamped token expiresAt now) s (.issuing token expiresAt now left [])
  | invalidate (s : Db T) (token : T) (expiresAt now : ℤ) (t : T) (left taken : List T) (h : t ∈ outstanding s.tokens) :
      Move s (.issuing token expiresAt now (t :: left) taken) s (.issuing token expiresAt now left (t :: taken))
  /-- Another has consumed it since. -/
  | leave (s : Db T) (token : T) (expiresAt now : ℤ) (t : T) (left taken : List T) (h : t ∉ outstanding s.tokens) :
      Move s (.issuing token expiresAt now (t :: left) taken) s (.issuing token expiresAt now left taken)
  | issue (s : Db T) (token : T) (expiresAt now : ℤ) (taken : List T) (hnew : token ∉ s.tokens.map Token.token) :
      Move s (.issuing token expiresAt now [] taken)
        { s with tokens := ⟨token, now, expiresAt, false, true⟩ :: consume taken s.tokens } .idle
  | follow (s : Db T) (token : T) : Move s .idle s (.verifying token)
  | lockToken (s : Db T) (r : Token T) (hr : r ∈ s.tokens) :
      Move s (.verifying r.token) s (.found r.token r.consumed r.expiresAt)
  | accept (s : Db T) (token : T) (expiresAt : ℤ) (h : ¬expiresAt < s.clock) :
      Move s (.found token false expiresAt) s (.accepted token)
  | write (s : Db T) (token : T) : Move s (.accepted token) s (.written token)
  | verify (s : Db T) (token : T) :
      Move s (.written token)
        { s with emailVerified := true, tokens := consume [token] s.tokens, verifiedBy := token :: s.verifiedBy } .idle

/-- Time passes. -/
inductive Env : Db T → Db T → Prop where
  | tick (s : Db T) (clock : ℤ) (h : s.clock ≤ clock) : Env s { s with clock := clock }

def system (serial : Bool) : System (Db T) (Pc T) (Lock T) := ⟨Env, Move, held serial⟩

end Home.Auth.Verification
