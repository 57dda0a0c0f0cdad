import Mathlib.Data.List.DropRight
import ManageOurHome.Error
import ManageOurHome.Lib.Net
import ManageOurHome.Text

/-! @src apps/api/src/public_destination.rs, apps/api/src/recipes/import.rs | layer:model | family:outbound

    Where a request made for a member may go. A literal address is checked in the URL, on the first request and on each
    redirect; a name is left to the resolver, which drops what is not public. The `url` and `reqwest` crates are not part
    of the repository: `Web` is what the code asks of them, and where reqwest goes without asking the resolver.

        raw ──importUrl──▶ url ──┬─ literal ─────────────▶ connect
                                 └─ name ──publicOnly────▶ connect
                    ◀──redirectPolicy── location -/

namespace Home.PublicDestination

open Net

/-- Redirects followed, at most, before giving up. -/
def MAX_REDIRECTS : ℕ := 5

def SOURCE_URL_MAX_LEN : ℕ := 2048

/-- Why a destination was refused. -/
inductive Refused where
  | Scheme | Destination | TooManyRedirects
  deriving DecidableEq

/-- The `url` and `reqwest` crates. -/
structure Web where
  Url : Type
  parse : Text → Option Url
  asStr : Url → Text
  scheme : Url → Text
  hostStr : Url → Option Text
  /-- Where reqwest connects without asking the resolver. -/
  literal : Url → Option IpAddr

/-! ### Addresses -/

/-- The IPv4 ranges that are not the public Internet. -/
def NON_PUBLIC_V4 : List (Ipv4Addr × ℕ) :=
  [(⟨0, 0, 0, 0⟩, 8), (⟨10, 0, 0, 0⟩, 8), (⟨100, 64, 0, 0⟩, 10), (⟨127, 0, 0, 0⟩, 8), (⟨169, 254, 0, 0⟩, 16),
   (⟨172, 16, 0, 0⟩, 12), (⟨192, 0, 0, 0⟩, 24), (⟨192, 0, 2, 0⟩, 24), (⟨192, 168, 0, 0⟩, 16), (⟨198, 18, 0, 0⟩, 15),
   (⟨198, 51, 100, 0⟩, 24), (⟨203, 0, 113, 0⟩, 24), (⟨224, 0, 0, 0⟩, 4), (⟨240, 0, 0, 0⟩, 4)]

/-- `u32::from`. -/
def bits (ip : Ipv4Addr) : BitVec 32 := BitVec.ofNat 32 ip.toNat

def isPublicV4 (ip : Ipv4Addr) : Bool :=
  !NON_PUBLIC_V4.any fun range =>
    let mask := BitVec.allOnes 32 <<< (32 - range.2)
    bits ip &&& mask = bits range.1 &&& mask

/-- The IPv4 address two groups hold. -/
def embedded (hi lo : Fin 65536) : Ipv4Addr :=
  ⟨⟨hi / 256, high_lt hi⟩, ⟨hi % 256, low_lt hi⟩, ⟨lo / 256, high_lt lo⟩, ⟨lo % 256, low_lt lo⟩⟩

def isPublicV6 (ip : Ipv6Addr) : Bool :=
  match toIpv4Mapped ip.segments with
  | some v4 => isPublicV4 v4
  | none =>
    match ip.segments with
    | [s0, s1, s2, s3, s4, s5, s6, s7] =>
      if s0 = 0x64 ∧ s1 = 0xff9b ∧ [s2, s3, s4, s5] = [0, 0, 0, 0] then isPublicV4 (embedded s6 s7)
      else if s0 = 0x2002 then isPublicV4 (embedded s1 s2)
      else
        let globalUnicast : Bool := BitVec.ofNat 16 s0 &&& 0xe000#16 = 0x2000#16
        let documentation : Bool := (s0 = 0x2001 ∧ s1 = 0x0db8) ∨ (s0 = 0x3fff ∧ s1 < 0x1000)
        let protocolAssignments : Bool := s0 = 0x2001 ∧ s1 < 0x0200
        globalUnicast && !documentation && !protocolAssignments
    -- there are eight groups
    | _ => false

/-- Whether `ip` is an address of the public Internet. -/
def isPublicIp : IpAddr → Bool
  | .V4 v4 => isPublicV4 v4
  | .V6 v6 => isPublicV6 v6

/-! ### URLs and names -/

variable (web : Web)

/-- `trim_start_matches('[')`, `trim_end_matches(']')`. -/
def trimBrackets (host : Text) : Text := (host.dropWhile (· = '[')).rdropWhile (· = ']')

/-- Whether `url` may be requested. -/
def checkUrl (url : web.Url) : Except Refused Unit :=
  if web.scheme url ≠ "http".toList ∧ web.scheme url ≠ "https".toList then .error .Scheme
  else
    match (web.hostStr url).filter (· ≠ []) with
    | none => .error .Destination
    | some host =>
      match parseIpAddr (trimBrackets host) with
      | some ip => if !isPublicIp ip then .error .Destination else .ok ()
      | none => .ok ()

/-- `PublicOnlyResolver`: what it keeps of what a name resolves to. -/
def publicOnly (resolved : List IpAddr) : Except Refused (List IpAddr) :=
  let public_ := resolved.filter isPublicIp
  if public_.isEmpty then .error .Destination else .ok public_

/-- Whether a redirect to `url` is followed, after the requests made so far. -/
def redirectPolicy (previous : List web.Url) (url : web.Url) : Except Refused Unit :=
  if MAX_REDIRECTS < previous.length then .error .TooManyRedirects else checkUrl web url

/-! ### The import -/

/-- Why an import brought no draft back. -/
inductive ImportFailure where
  | InvalidUrl | SchemeRefused | DestinationRefused | Timeout | Unreachable | NotHtml | TooLarge | NoRecipe
  deriving DecidableEq

def refused : Refused → ImportFailure
  | .Scheme => .SchemeRefused
  | .Destination => .DestinationRefused
  | .TooManyRedirects => .Unreachable

def validSourceUrl (sourceUrl : Text) : Option Text := do
  let sourceUrl := trim sourceUrl
  if SOURCE_URL_MAX_LEN < sourceUrl.length then none
  let parsed ← web.parse sourceUrl
  let isWeb := (web.scheme parsed = "http".toList ∨ web.scheme parsed = "https".toList) ∧
    (web.hostStr parsed).any (· ≠ [])
  if isWeb then some sourceUrl else none

/-- The address to fetch. -/
def importUrl (raw : Text) : Except ImportFailure web.Url :=
  match web.parse (trim raw) with
  | none => .error .InvalidUrl
  | some url =>
    match checkUrl web url with
    | .error refusal => .error (refused refusal)
    | .ok () =>
      match validSourceUrl web (web.asStr url) with
      | none => .error .InvalidUrl
      | some _ => .ok url

/-- What an import has asked for: the URLs requested, in order, and the addresses connected to. -/
structure Import where
  requested : List web.Url
  connected : List IpAddr

/-- One step of `fetch_page`'s client. -/
inductive Import.Step : Import web → Import web → Prop where
  /-- To the address the URL gives. -/
  | literal (s : Import web) (url : web.Url) (ip : IpAddr) (hurl : s.requested.getLast? = some url)
      (hip : web.literal url = some ip) : Step s { s with connected := s.connected ++ [ip] }
  /-- To an address the name resolves to, this time. -/
  | resolved (s : Import web) (url : web.Url) (answer public_ : List IpAddr) (ip : IpAddr)
      (hurl : s.requested.getLast? = some url) (hname : web.literal url = none) (hresolve : publicOnly answer = .ok public_)
      (hip : ip ∈ public_) : Step s { s with connected := s.connected ++ [ip] }
  /-- To where the server answers. -/
  | redirect (s : Import web) (location : web.Url) (h : redirectPolicy web s.requested location = .ok ()) :
      Step s { s with requested := s.requested ++ [location] }

/-- The states an import of `raw` goes through. -/
inductive Import.Reachable (raw : Text) : Import web → Prop where
  | start (url : web.Url) (h : importUrl web raw = .ok url) : Reachable raw ⟨[url], []⟩
  | step (s s' : Import web) (h : Reachable raw s) (hstep : Import.Step web s s') : Reachable raw s'

end Home.PublicDestination
