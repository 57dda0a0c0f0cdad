import ManageOurHome.Lib.Net
import ManageOurHome.Text

/-! @src apps/api/src/client_ip.rs, apps/web/src/client_ip.rs | layer:model | family:client address

    Who is on the other end of a request, behind the reverse proxies. Each proxy appends the address it
    saw to `X-Forwarded-For`; the API reads the header from the right, past the addresses it trusts, and
    the first that is not one of them is the client.

        sent      h, c, p₁, p₂     to the API, from p₃
        read      ◀──────────── -/

namespace Home.ClientIp

open Net

/-! ### apps/api -/

/-- The peers whose `X-Forwarded-For` is honoured. -/
abbrev TrustedProxies := List IpNet

def contains (trusted : TrustedProxies) (ip : IpAddr) : Bool := trusted.any fun net => net.contains ip

/-- One entry: an address, an address and a port, or an IPv6 address in brackets. -/
def parseEntry (token : Text) : Option IpAddr :=
  match parseIpAddr token with
  | some ip => some ip
  | none =>
    match parseSocketAddr token with
    | some ip => some ip
    | none =>
      match token with
      | '[' :: inner => if inner.getLast? = some ']' then parseIpAddr inner.dropLast else none
      | _ => none

/-- `resolve`'s loop over the entries, from the rightmost one: the innermost address trusted so far. -/
def walk (trusted : TrustedProxies) (peer : IpAddr) : Option IpAddr → List Text → IpAddr
  | innermost, [] => innermost.getD peer
  | innermost, token :: tokens =>
    if trim token = [] then walk trusted peer innermost tokens
    else match parseEntry (trim token) with
      | some ip => if contains trusted ip then walk trusted peer (some ip) tokens else ip
      | none => innermost.getD peer

/-- The client address behind the proxy chain. -/
def resolve (peer : Option IpAddr) (forwardedFor : Option Text) (trusted : TrustedProxies) : IpAddr :=
  match peer with
  | none => .V4 ⟨0, 0, 0, 0⟩
  | some peer =>
    if !contains trusted peer then peer
    else match forwardedFor with
      | none => peer
      | some header => walk trusted peer none (header.splitOn ',').reverse

/-! ### apps/web -/

/-- Hops kept in the forwarded chain, the one appended included. -/
def MAX_HOPS : ℕ := 8

/-- The entries of a header that are not blank. -/
def entries (header : Text) : List Text := ((header.splitOn ',').map trim).filter (· ≠ [])

/-- The `X-Forwarded-For` of the internal call. -/
def forwardedFor (incoming : Option Text) (peer : IpAddr) : Text :=
  let hops := entries (incoming.getD []) ++ [peer.toText]
  [',', ' '].intercalate (hops.drop (hops.length - MAX_HOPS))

/-! ### The chain -/

/-- A proxy: its address, and whether it is apps/web. -/
structure Proxy where
  addr : IpAddr
  web : Bool

/-- The header a proxy sends on, of the header it received and the address it saw. -/
def Proxy.append (p : Proxy) (header : Option Text) (seen : IpAddr) : Text :=
  if p.web then forwardedFor header seen
  else match header with
    | none => seen.toText
    | some h => h ++ ',' :: ' ' :: seen.toText

end Home.ClientIp
