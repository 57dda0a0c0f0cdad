import Mathlib.Data.Bool.AllAny
import Mathlib.Data.List.TakeDrop
import Mathlib.Data.List.TakeWhile
import Mathlib.Data.Nat.Digits.Defs

/-! @lib internet addresses as text | layer:library | family:parsing

    IPv4 and IPv6 addresses, how they are written, and how a strict parser reads them back: the dotted
    quad without leading zeros, the eight groups with the longest run of zeros cut out, and the IPv4
    address mapped into an IPv6 one. A reader takes what it can from the front and leaves the rest.

        written   2001:db8::1
        read      head [2001, db8]  ·  ::  ·  tail [1] -/

namespace Net

/-! ### Numbers -/

/-- The value of a digit or a letter. -/
def digitValue (c : Char) : Option ℕ :=
  if '0' ≤ c ∧ c ≤ '9' then some (c.toNat - 48)
  else if 'a' ≤ c ∧ c ≤ 'z' then some (c.toNat - 87)
  else if 'A' ≤ c ∧ c ≤ 'Z' then some (c.toNat - 55)
  else none

/-- The value of a digit in a base (`char::to_digit`). -/
def toDigit (radix : ℕ) (c : Char) : Option ℕ := (digitValue c).filter (· < radix)

/-- What digits add up to. -/
def value (radix : ℕ) (digits : List Char) : ℕ :=
  digits.foldl (fun n c => n * radix + (toDigit radix c).getD 0) 0

/-- Reads a number below `bound`: at most `maxDigits` digits, and no zero before others unless allowed. -/
def readNumber (radix bound : ℕ) (maxDigits : Option ℕ) (allowZero : Bool) (s : List Char) :
    Option (Fin bound × List Char) :=
  let digits := s.takeWhile fun c => (toDigit radix c).isSome
  if digits = [] ∨ maxDigits.any (· < digits.length) then none
  else if !allowZero ∧ digits.head? = some '0' ∧ 1 < digits.length then none
  else if h : value radix digits < bound then some (⟨value radix digits, h⟩, s.dropWhile fun c => (toDigit radix c).isSome)
  else none

/-- Reads an item, after a separator unless it is the first. -/
def readSeparator {α : Type*} (sep : Char) (read : List Char → Option (α × List Char)) :
    Bool → List Char → Option (α × List Char)
  | true, s => read s
  | false, c :: s => if c = sep then read s else none
  | false, [] => none

variable {radix bound n : ℕ} {rest : List Char}

theorem digitValue_digitChar (h : n < 16) : digitValue n.digitChar = some n := by
  have hall : ∀ n < 16, digitValue (Nat.digitChar n) = some n := by decide
  exact hall n h

theorem toDigit_digitChar (hr : radix ≤ 16) (h : n < radix) : toDigit radix n.digitChar = some n := by
  rw [toDigit, digitValue_digitChar (h.trans_le hr)]
  simp [h]

theorem value_concat (digits : List Char) (c : Char) :
    value radix (digits ++ [c]) = value radix digits * radix + (toDigit radix c).getD 0 := by
  rw [value, List.foldl_append]
  rfl

/-- A number as written: digits, that add up to it, none of them a zero before others. -/
theorem toDigits_spec (h1 : 1 < radix) (hr : radix ≤ 16) (n : ℕ) :
    (∀ c ∈ Nat.toDigits radix n, (toDigit radix c).isSome) ∧ value radix (Nat.toDigits radix n) = n ∧
      (0 < n → (Nat.toDigits radix n).head? ≠ some '0') := by
  induction n using Nat.strong_induction_on with
  | _ n ih =>
    rw [Nat.toDigits_eq_if h1]
    split
    · rename_i hn
      have hdigit := toDigit_digitChar hr hn
      refine ⟨fun c hc => ?_, ?_, fun hpos => ?_⟩
      · rw [List.mem_singleton.mp hc, hdigit]
        rfl
      · rw [value, List.foldl_cons, hdigit]
        simp
      · rw [List.head?_cons, ne_eq, Option.some.injEq, Nat.digitChar_eq_zero]
        exact hpos.ne'
    · rename_i hn
      have hpos : 0 < n := by omega
      have hdigit := toDigit_digitChar hr (Nat.mod_lt n (by omega : 0 < radix))
      obtain ⟨hall, hvalue, hhead⟩ := ih (n / radix) (Nat.div_lt_self hpos h1)
      refine ⟨fun c hc => ?_, ?_, fun _ => ?_⟩
      · rcases List.mem_append.mp hc with hc | hc
        · exact hall c hc
        · rw [List.mem_singleton.mp hc, hdigit]
          rfl
      · rw [value_concat, hvalue, hdigit, Option.getD_some, Nat.div_add_mod']
      · intro hzero
        rw [List.head?_append, Option.or_eq_some_iff] at hzero
        rcases hzero with hzero | ⟨hnil, _⟩
        · exact hhead (Nat.div_pos (by omega) (by omega)) hzero
        · exact Nat.toDigits_ne_nil (List.head?_eq_none_iff.mp hnil)

/-- An octet, and a group of two. -/
instance octet : NeZero 256 := ⟨by decide⟩

instance group : NeZero 65536 := ⟨by decide⟩

structure Ipv4Addr where
  a : Fin 256
  b : Fin 256
  c : Fin 256
  d : Fin 256
  deriving DecidableEq

/-- The dotted quad (`Display`). -/
def Ipv4Addr.toText (ip : Ipv4Addr) : List Char :=
  Nat.toDigits 10 ip.a ++ '.' :: (Nat.toDigits 10 ip.b ++ '.' :: (Nat.toDigits 10 ip.c ++ '.' ::
    Nat.toDigits 10 ip.d))

/-- One of the four numbers: at most three digits, no zero before others. -/
def readOctet : Bool → List Char → Option (Fin 256 × List Char) :=
  readSeparator '.' (readNumber 10 256 (some 3) false)

def readIpv4 (s : List Char) : Option (Ipv4Addr × List Char) := do
  let (a, s) ← readOctet true s
  let (b, s) ← readOctet false s
  let (c, s) ← readOctet false s
  let (d, s) ← readOctet false s
  return (⟨a, b, c, d⟩, s)

/-- Eight groups. -/
structure Ipv6Addr where
  segments : List (Fin 65536)
  length : segments.length = 8
  deriving DecidableEq

/-- The last two groups of an IPv4 address written at the end of an IPv6 one. -/
def Ipv4Addr.groups (ip : Ipv4Addr) : List (Fin 65536) :=
  [⟨ip.a * 256 + ip.b, by omega⟩, ⟨ip.c * 256 + ip.d, by omega⟩]

theorem high_lt (group : Fin 65536) : group.val / 256 < 256 := by omega

theorem low_lt (group : Fin 65536) : group.val % 256 < 256 := by omega

/-- The IPv4 address mapped into these groups (`to_ipv4_mapped`). -/
def toIpv4Mapped : List (Fin 65536) → Option Ipv4Addr
  | [0, 0, 0, 0, 0, 65535, ab, cd] =>
    some ⟨⟨ab / 256, high_lt ab⟩, ⟨ab % 256, low_lt ab⟩, ⟨cd / 256, high_lt cd⟩, ⟨cd % 256, low_lt cd⟩⟩
  | _ => none

/-- A run of zeros, by its start and its length, one longer. -/
def grow (i : ℕ) (run : ℕ × ℕ) : ℕ × ℕ := if run.2 = 0 then (i, 1) else (run.1, run.2 + 1)

/-- The loop over the groups that looks for zeros: the longest run, and the one under way. -/
def zeroRuns : ℕ → ℕ × ℕ → ℕ × ℕ → List (Fin 65536) → ℕ × ℕ
  | _, longest, _, [] => longest
  | i, longest, current, segment :: segments =>
    if segment = 0 then
      zeroRuns (i + 1) (if longest.2 < (grow i current).2 then grow i current else longest) (grow i current)
        segments
    else zeroRuns (i + 1) longest (0, 0) segments

/-- Groups, in hexadecimal. -/
def tailText (segments : List (Fin 65536)) : List Char :=
  segments.flatMap fun segment => ':' :: Nat.toDigits 16 segment.val

def groupsText : List (Fin 65536) → List Char
  | [] => []
  | segment :: segments => Nat.toDigits 16 segment ++ tailText segments

/-- The address, its longest run of at least two zeros cut out (`Display`). -/
def Ipv6Addr.toText (ip : Ipv6Addr) : List Char :=
  match toIpv4Mapped ip.segments with
  | some v4 => [':', ':', 'f', 'f', 'f', 'f', ':'] ++ v4.toText
  | none =>
    let (start, len) := zeroRuns 0 (0, 0) (0, 0) ip.segments
    if 1 < len then
      groupsText (ip.segments.take start) ++ ':' :: ':' :: groupsText (ip.segments.drop (start + len))
    else groupsText ip.segments

/-- Reads at most so many groups, the first without a colon before it; an IPv4 address may stand for two
    of them, and ends them. -/
def readGroups : ℕ → Bool → List Char → List (Fin 65536) × Bool × List Char
  | 0, _, s => ([], false, s)
  | n + 1, first, s =>
    match if 1 ≤ n then readSeparator ':' readIpv4 first s else none with
    | some (v4, s) => (v4.groups, true, s)
    | none =>
      match readSeparator ':' (readNumber 16 65536 (some 4) true) first s with
      | some (segment, s) => (segment :: (readGroups n false s).1, (readGroups n false s).2)
      | none => ([], false, s)

theorem length_readGroups (n : ℕ) : ∀ first s, (readGroups n first s).1.length ≤ n := by
  induction n with
  | zero => exact fun _ _ => le_rfl
  | succ n ih =>
    intro first s
    rw [readGroups]
    split
    · rename_i v4 _ hv4
      split at hv4
      · rw [Ipv4Addr.groups]
        exact Nat.succ_le_succ (by assumption)
      · exact absurd hv4 (by simp)
    · split
      · exact Nat.succ_le_succ (ih _ _)
      · exact Nat.zero_le _

/-- Eight groups, or some, the run of zeros cut out, and some. -/
def readIpv6 (s : List Char) : Option (Ipv6Addr × List Char) :=
  let head := readGroups 8 true s
  if h : head.1.length = 8 then some (⟨head.1, h⟩, head.2.2)
  else if head.2.1 then none
  else match head.2.2 with
    | ':' :: ':' :: s =>
      let tail := readGroups (7 - head.1.length) true s
      have hhead := length_readGroups 8 true s
      some (⟨head.1 ++ List.replicate (8 - head.1.length - tail.1.length) 0 ++ tail.1, by
        have htail : tail.1.length ≤ 7 - head.1.length := length_readGroups _ _ _
        have hhead : head.1.length ≤ 8 := length_readGroups _ _ _
        simp only [List.length_append, List.length_replicate]
        omega⟩, tail.2.2)
    | _ => none

/-! ### IPv6, read back -/

/-- What may follow a group: nothing, or a colon. -/
def Ends (rest : List Char) : Prop := ∀ c ∈ rest.head?, c = ':'

theorem toIpv4Mapped_eq_some {segments : List (Fin 65536)} {v4 : Ipv4Addr}
    (h : toIpv4Mapped segments = some v4) : segments = [0, 0, 0, 0, 0, 65535] ++ v4.groups := by
  rw [toIpv4Mapped.eq_def] at h
  split at h
  · rename_i ab cd
    rw [← Option.some.inj h, Ipv4Addr.groups]
    simp only [List.cons_append, List.nil_append, List.cons.injEq, true_and, and_true]
    constructor
    · exact Fin.ext (by simp; omega)
    · exact Fin.ext (by simp; omega)
  · exact absurd h (by simp)

inductive IpAddr where
  | V4 (ip : Ipv4Addr)
  | V6 (ip : Ipv6Addr)
  deriving DecidableEq

/-- As it is written (`Display`). -/
def IpAddr.toText : IpAddr → List Char
  | .V4 ip => ip.toText
  | .V6 ip => ip.toText

/-- Reads a whole text (`str::parse::<IpAddr>`). -/
def parseIpAddr (s : List Char) : Option IpAddr :=
  match readIpv4 s with
  | some (ip, rest) => if rest = [] then some (.V4 ip) else none
  | none =>
    match readIpv6 s with
    | some (ip, rest) => if rest = [] then some (.V6 ip) else none
    | none => none

/-- A colon, and a port. -/
def readPort : List Char → Option (Fin 65536 × List Char)
  | ':' :: s => readNumber 10 65536 none true s
  | _ => none

def readSocketV4 (s : List Char) : Option (Ipv4Addr × List Char) := do
  let (ip, s) ← readIpv4 s
  let (_, s) ← readPort s
  return (ip, s)

/-- The zone after an IPv6 address, when there is one. -/
def skipScope (s : List Char) : List Char :=
  match s with
  | '%' :: rest =>
    match readNumber 10 (2 ^ 32) none true rest with
    | some (_, rest) => rest
    | none => s
  | _ => s

def readSocketV6 : List Char → Option (Ipv6Addr × List Char)
  | '[' :: s => do
    let (ip, s) ← readIpv6 s
    match skipScope s with
    | ']' :: s => do
      let (_, s) ← readPort s
      return (ip, s)
    | _ => none
  | _ => none

/-- Reads a whole text as an address and a port (`str::parse::<SocketAddr>`), and keeps the address. -/
def parseSocketAddr (s : List Char) : Option IpAddr :=
  match readSocketV4 s with
  | some (ip, rest) => if rest = [] then some (.V4 ip) else none
  | none =>
    match readSocketV6 s with
    | some (ip, rest) => if rest = [] then some (.V6 ip) else none
    | none => none

/-- A character an address may have: from the dot to the last hexadecimal letter. -/
def AddressChar (c : Char) : Prop := 46 ≤ c.toNat ∧ c.toNat ≤ 102

theorem addressChar_of_toDigit {c : Char} (hr : radix ≤ 16) (h : (toDigit radix c).isSome) : AddressChar c := by
  obtain ⟨n, hn⟩ := Option.isSome_iff_exists.mp h
  rw [toDigit, Option.filter_eq_some_iff, digitValue] at hn
  obtain ⟨hn, hlt⟩ := hn
  have hlt : n < radix := of_decide_eq_true hlt
  split at hn
  · rename_i hc
    have hlo : 48 ≤ c.toNat := hc.1
    have hhi : c.toNat ≤ 57 := hc.2
    exact ⟨by omega, by omega⟩
  · split at hn
    · rename_i hc
      have hlo : 97 ≤ c.toNat := hc.1
      have hval := Option.some.inj hn
      exact ⟨by omega, by omega⟩
    · split at hn
      · rename_i hc
        have hlo : 65 ≤ c.toNat := hc.1
        have hhi : c.toNat ≤ 90 := hc.2
        exact ⟨by omega, by omega⟩
      · exact absurd hn (by simp)

theorem addressChar_toDigits (h1 : 1 < radix) (hr : radix ≤ 16) {c : Char} (hc : c ∈ Nat.toDigits radix n) :
    AddressChar c := addressChar_of_toDigit hr ((toDigits_spec h1 hr n).1 c hc)

theorem addressChar_dot : AddressChar '.' := ⟨by decide, by decide⟩

theorem addressChar_colon : AddressChar ':' := ⟨by decide, by decide⟩

theorem Ipv4Addr.addressChar {ip : Ipv4Addr} {c : Char} (h : c ∈ ip.toText) : AddressChar c := by
  rw [Ipv4Addr.toText] at h
  simp only [List.mem_append, List.mem_cons] at h
  have hdigits : ∀ n, c ∈ Nat.toDigits 10 n → AddressChar c := fun n hc =>
    addressChar_toDigits (by omega) (by omega) hc
  rcases h with h | rfl | h | rfl | h | rfl | h
  · exact hdigits _ h
  · exact addressChar_dot
  · exact hdigits _ h
  · exact addressChar_dot
  · exact hdigits _ h
  · exact addressChar_dot
  · exact hdigits _ h

theorem addressChar_groupsText {segments : List (Fin 65536)} {c : Char} (h : c ∈ groupsText segments) :
    AddressChar c := by
  have hdigits : ∀ n, c ∈ Nat.toDigits 16 n → AddressChar c := fun n hc =>
    addressChar_toDigits (by omega) (by omega) hc
  rcases segments with _ | ⟨segment, segments⟩
  · exact absurd h List.not_mem_nil
  · rcases List.mem_append.mp h with h | h
    · exact hdigits _ h
    · obtain ⟨segment, _, hc⟩ := List.mem_flatMap.mp h
      rcases List.mem_cons.mp hc with rfl | hc
      · exact addressChar_colon
      · exact hdigits _ hc

theorem Ipv6Addr.addressChar {ip : Ipv6Addr} {c : Char} (h : c ∈ ip.toText) : AddressChar c := by
  rw [Ipv6Addr.toText] at h
  split at h
  · rcases List.mem_append.mp h with h | h
    · have hall : ∀ c ∈ [':', ':', 'f', 'f', 'f', 'f', ':'], 46 ≤ c.toNat ∧ c.toNat ≤ 102 :=
        List.all_iff_forall_prop.mp (by decide)
      exact hall c h
    · exact Ipv4Addr.addressChar h
  · dsimp only at h
    split at h
    · rcases List.mem_append.mp h with h | h
      · exact addressChar_groupsText h
      · rcases List.mem_cons.mp h with rfl | h
        · exact addressChar_colon
        · rcases List.mem_cons.mp h with rfl | h
          · exact addressChar_colon
          · exact addressChar_groupsText h
    · exact addressChar_groupsText h

theorem IpAddr.addressChar {ip : IpAddr} {c : Char} (h : c ∈ ip.toText) : AddressChar c := by
  cases ip with
  | V4 ip => exact Ipv4Addr.addressChar h
  | V6 ip => exact Ipv6Addr.addressChar h

/-- The number an address is. -/
def Ipv4Addr.toNat (ip : Ipv4Addr) : ℕ := ((ip.a * 256 + ip.b) * 256 + ip.c) * 256 + ip.d

def Ipv6Addr.toNat (ip : Ipv6Addr) : ℕ := ip.segments.foldl (fun n segment => n * 65536 + segment.val) 0

/-- The addresses that share so many leading bits with one. -/
inductive IpNet where
  | V4 (addr : Ipv4Addr) (len : Fin 33)
  | V6 (addr : Ipv6Addr) (len : Fin 129)
  deriving DecidableEq

def IpNet.contains : IpNet → IpAddr → Bool
  | .V4 addr len, .V4 ip => ip.toNat / 2 ^ (32 - len.val) = addr.toNat / 2 ^ (32 - len.val)
  | .V6 addr len, .V6 ip => ip.toNat / 2 ^ (128 - len.val) = addr.toNat / 2 ^ (128 - len.val)
  | _, _ => false

end Net
