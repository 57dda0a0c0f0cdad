import ManageOurHome.Text

/-! @src apps/http_guard/src/origin.rs | layer:model | family:cross-origin

    What the guard makes of a request that can change something: one of the application's own pages shows
    it by its `Origin`, or by what the browser says of it; a request with neither is not a browser's. A
    header's value is bytes, which may not be text.

        trusted origin ─▶ Sec-Fetch-Site ─▶ Origin against Host -/

namespace Home.HttpGuard

inductive Method where
  | GET | HEAD | OPTIONS
  | other (name : Text)
  deriving DecidableEq

/-- A header's name, in lowercase. -/
inductive Name where
  | ORIGIN | SEC_FETCH_SITE | HOST | UPGRADE
  | other (name : Text)
  deriving DecidableEq

abbrev HeaderValue := List (Fin 256)

abbrev HeaderMap := List (Name × HeaderValue)

/-- The values of a header, in their order. -/
def getAll (headers : HeaderMap) (name : Name) : List HeaderValue :=
  headers.filterMap fun h => if h.1 = name then some h.2 else none

/-- A value that is text: visible ASCII, and tabs. -/
def toStr (value : HeaderValue) : Option Text :=
  if value.all fun b => (32 ≤ b.val ∧ b.val < 127) ∨ b.val = 9 then
    some (value.map fun b => Char.ofNat b.val)
  else none

def eqIgnoreAsciiCase (a b : Text) : Bool := asciiLowercase a = asciiLowercase b

inductive CrossOrigin where
  | Allow | Refuse
  deriving DecidableEq, Repr

/-- `str::split_once`. -/
def splitOnce (pat : Text) : Text → Option (Text × Text)
  | [] => if pat = [] then some ([], []) else none
  | c :: s =>
    if pat.isPrefixOf (c :: s) then some ([], (c :: s).drop pat.length)
    else (splitOnce pat s).map fun (before, after) => (c :: before, after)

theorem splitOnce_char {c : Char} {s : Text} (h : c ∉ s) (rest : Text) :
    splitOnce [c] (s ++ c :: rest) = some (s, rest) := by
  induction s with
  | nil =>
    rw [List.nil_append, splitOnce, if_pos (by simp)]
    rfl
  | cons d s ih =>
    have hd : ¬ ([c] : Text).isPrefixOf (d :: (s ++ c :: rest)) = true := by
      have hne : c ≠ d := fun heq => h (heq ▸ List.mem_cons_self)
      simp [hne]
    rw [List.cons_append, splitOnce, if_neg hd, ih fun hmem => h (List.mem_cons_of_mem _ hmem)]
    rfl

def websocket : Text := ['w', 'e', 'b', 's', 'o', 'c', 'k', 'e', 't']

def sameOrigin : Text := ['s', 'a', 'm', 'e', '-', 'o', 'r', 'i', 'g', 'i', 'n']

def noSite : Text := ['n', 'o', 'n', 'e']

/-- A request asking to become a WebSocket. -/
def isWebsocketUpgrade (headers : HeaderMap) : Bool :=
  (((getAll headers .UPGRADE).filterMap toStr).flatMap fun v => v.splitOn ',').any fun token =>
    eqIgnoreAsciiCase (trim token) websocket

/-- The first value of a header; one that is not text matches nothing. -/
def text (headers : HeaderMap) (name : Name) : Option Text :=
  (getAll headers name).head?.map fun v => (toStr v).getD []

/-- Whether the `Origin` is the trusted one. -/
def matchesTrusted : Option Text → Option Text → Bool
  | some origin, some trusted => eqIgnoreAsciiCase origin trusted
  | _, _ => false

/-- Without `Sec-Fetch-Site`, `Origin` decides: it passes when its host is the request's own. -/
def judgeHost (host : Option Text) : Option Text → CrossOrigin
  | none => .Allow
  | some origin =>
    match (splitOnce [':', '/', '/'] origin).map Prod.snd, host with
    | some authority, some host =>
      if host ≠ [] ∧ eqIgnoreAsciiCase authority host then .Allow else .Refuse
    | _, _ => .Refuse

/-- Judges a request from its method and headers. -/
def judge (method : Method) (headers : HeaderMap) (trustedOrigin : Option Text) : CrossOrigin :=
  let safe := method = .GET ∨ method = .HEAD ∨ method = .OPTIONS
  if safe ∧ !isWebsocketUpgrade headers then .Allow
  -- a header sent twice
  else if 1 < (getAll headers .ORIGIN).length then .Refuse
  else if 1 < (getAll headers .SEC_FETCH_SITE).length then .Refuse
  else if matchesTrusted (text headers .ORIGIN) trustedOrigin then .Allow
  else match text headers .SEC_FETCH_SITE with
  | some site => if site = sameOrigin ∨ site = noSite then .Allow else .Refuse
  | none => judgeHost (text headers .HOST) (text headers .ORIGIN)

def http : Text := ['h', 't', 't', 'p']

def https : Text := ['h', 't', 't', 'p', 's']

/-- The port a scheme goes without, as it is written. -/
def defaultPort (scheme : Text) : Option Text :=
  if scheme = http then some [':', '8', '0']
  else if scheme = https then some [':', '4', '4', '3']
  else none

/-- `str::strip_suffix`, or the text itself. -/
def stripSuffix (suffix s : Text) : Text :=
  if suffix.isSuffixOf s then s.take (s.length - suffix.length) else s

/-- The origin of a base URL: scheme, host and port, in lowercase, the default port dropped. -/
def originOf (url : Text) : Option Text :=
  match splitOnce [':', '/', '/'] url with
  | none => none
  | some (scheme, rest) =>
    let authority := rest.takeWhile fun c => c ≠ '/' ∧ c ≠ '?' ∧ c ≠ '#'
    if scheme = [] ∨ authority = [] then none
    else
      let scheme := asciiLowercase scheme
      let authority := asciiLowercase authority
      let authority := match defaultPort scheme with
        | some port => stripSuffix port authority
        | none => authority
      some (scheme ++ [':', '/', '/'] ++ authority)

end Home.HttpGuard
