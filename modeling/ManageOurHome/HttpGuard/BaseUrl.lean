import ManageOurHome.HttpGuard.Origin
import ManageOurHome.Lib.Net

/-! @src apps/http_guard/src/origin.rs | layer:spec | family:cross-origin

    The origin a browser writes for the pages of a base URL, and the one the guard trusts: the two differ
    when the URL writes its host, or its port, as a browser does not.

        http://Maison.test:80/x    code  http://maison.test        browser  http://maison.test
        http://Maison.test:080/x   code  http://maison.test:080    browser  http://maison.test -/

namespace Home.HttpGuard

open Net

/-! ### A base URL -/

/-- A host on its own: no port can be read at its end. -/
def Hosted (host : Text) : Prop := ':' ∉ host ∨ host.getLast? = some ']'

/-- A port as a URL writes it: digits, perhaps none. -/
def Digits (port : Text) : Prop := ∀ c ∈ port, (toDigit 10 c).isSome

/-- An `http(s)` URL without userinfo. -/
structure BaseUrl where
  scheme : Text
  host : Text
  port : Option Text
  /-- Path, query and fragment. -/
  tail : Text
  scheme_web : asciiLowercase scheme = http ∨ asciiLowercase scheme = https
  host_ne_nil : host ≠ []
  host_hosted : Hosted host
  host_char : ∀ c ∈ host, c ≠ '/' ∧ c ≠ '?' ∧ c ≠ '#' ∧ c ≠ '@' ∧ c ≠ '\\'
  port_digits : ∀ digits ∈ port, Digits digits ∧ value 10 digits < 65536
  tail_head : ∀ c ∈ tail.head?, c = '/' ∨ c = '?' ∨ c = '#'

/-- What follows the host. -/
def portText : Option Text → Text
  | none => []
  | some digits => ':' :: digits

def BaseUrl.url (u : BaseUrl) : Text :=
  u.scheme ++ [':', '/', '/'] ++ (u.host ++ portText u.port ++ u.tail)

/-- The port a scheme goes without. -/
def schemePort (scheme : Text) : ℕ := if asciiLowercase scheme = http then 80 else 443

/-- The port of an origin: a number, none for the scheme's own. -/
def originPort (u : BaseUrl) : Option ℕ :=
  match u.port with
  | none => none
  | some digits =>
    if digits = [] ∨ value 10 digits = schemePort u.scheme then none else some (value 10 digits)

/-- The origin as a browser writes it, which writes hosts its own way. -/
def browserOrigin (serialise : Text → Text) (u : BaseUrl) : Text :=
  asciiLowercase u.scheme ++ [':', '/', '/'] ++
    (serialise u.host ++ portText ((originPort u).map (Nat.toDigits 10)))

/-! ### The port of a host -/

theorem digit_of_toDigit {c : Char} (h : (toDigit 10 c).isSome) : 48 ≤ c.toNat ∧ c.toNat ≤ 57 := by
  obtain ⟨n, hn⟩ := Option.isSome_iff_exists.mp h
  rw [toDigit, Option.filter_eq_some_iff, digitValue] at hn
  obtain ⟨hn, hlt⟩ := hn
  have hlt : n < 10 := of_decide_eq_true hlt
  split at hn
  · rename_i hc
    exact ⟨hc.1, hc.2⟩
  · split at hn
    · rename_i hc
      have hlo : 97 ≤ c.toNat := hc.1
      have hval := Option.some.inj hn
      omega
    · split at hn
      · rename_i hc
        have hlo : 65 ≤ c.toNat := hc.1
        have hval := Option.some.inj hn
        omega
      · exact absurd hn (by simp)

theorem Digits.not_mem {digits : Text} {c : Char} (h : Digits digits) (hc : 57 < c.toNat) : c ∉ digits :=
  fun hmem => absurd (digit_of_toDigit (h c hmem)).2 (by omega)

theorem digits_toDigits (n : ℕ) : Digits (Nat.toDigits 10 n) :=
  (toDigits_spec (by decide) (by decide) n).1

/-- A host does not end with a port. -/
theorem Hosted.ne_port {host before digits : Text} (h : Hosted host) (hdigits : Digits digits) :
    host ≠ before ++ ':' :: digits := by
  rintro rfl
  rcases h with hcolon | hlast
  · exact hcolon (by simp)
  · rw [List.getLast?_append, List.getLast?_cons] at hlast
    have hlast : (digits.getLast?.getD ':') = ']' := by simpa using hlast
    rcases hdigit : digits.getLast? with _ | c
    · rw [hdigit] at hlast
      exact absurd hlast (by decide)
    · rw [hdigit, Option.getD_some] at hlast
      exact hdigits.not_mem (by decide) (hlast ▸ List.mem_of_getLast? hdigit)

/-- The last colon cuts a text in one way. -/
theorem append_colon_inj {before before' digits digits' : Text} (hdigits : ':' ∉ digits) (hdigits' : ':' ∉ digits')
    (h : before ++ ':' :: digits = before' ++ ':' :: digits') : before = before' ∧ digits = digits' := by
  rcases List.append_eq_append_iff.mp h with ⟨between, hbefore, hafter⟩ | ⟨between, hbefore, hafter⟩
  · rcases between with _ | ⟨c, between⟩
    · exact ⟨(List.append_nil _ ▸ hbefore).symm, (List.cons.inj hafter).2⟩
    · exact absurd ((List.cons.inj hafter).2 ▸ by simp) hdigits
  · rcases between with _ | ⟨c, between⟩
    · exact ⟨List.append_nil before' ▸ hbefore, (List.cons.inj hafter).2.symm⟩
    · exact absurd ((List.cons.inj hafter).2 ▸ by simp) hdigits'

/-- A host and its port are told apart. -/
theorem host_port_inj {host host' : Text} {port port' : Option Text} (hhost : Hosted host) (hhost' : Hosted host')
    (hport : ∀ digits ∈ port, Digits digits) (hport' : ∀ digits ∈ port', Digits digits)
    (h : host ++ portText port = host' ++ portText port') : host = host' ∧ port = port' := by
  rcases port with _ | digits
  · rcases port' with _ | digits'
    · exact ⟨by simpa [portText] using h, rfl⟩
    · exact absurd ((List.append_nil host).symm.trans h) (hhost.ne_port (hport' _ rfl))
  · rcases port' with _ | digits'
    · exact absurd (h.trans (List.append_nil host')).symm (hhost'.ne_port (hport _ rfl))
    · obtain ⟨heq, hsame⟩ := append_colon_inj ((hport _ rfl).not_mem (by decide)) ((hport' _ rfl).not_mem (by decide)) h
      exact ⟨heq, congrArg some hsame⟩

/-! ### The origin of a base URL -/

theorem toLower_digit {c : Char} (h : (toDigit 10 c).isSome) : c.toLower = c := by
  have hhi := (digit_of_toDigit h).2
  refine dif_neg ?_
  rintro ⟨hlo, _⟩
  have hlo : 65 ≤ c.toNat := hlo
  omega

theorem Hosted.asciiLowercase {host : Text} (h : Hosted host) : Hosted (asciiLowercase host) := by
  rcases h with hcolon | hlast
  · refine Or.inl fun hmem => hcolon ?_
    obtain ⟨c, hc, heq⟩ := List.mem_map.mp hmem
    exact (toLower_eq_iff ⟨by decide, by decide⟩).mp heq ▸ hc
  · refine Or.inr ?_
    rw [Home.asciiLowercase, List.getLast?_map, hlast]
    rfl

theorem asciiLowercase_portText {port : Option Text} (h : ∀ digits ∈ port, Digits digits) :
    asciiLowercase (portText port) = portText port := by
  rcases port with _ | digits
  · rfl
  · change ':' :: asciiLowercase digits = ':' :: digits
    rw [asciiLowercase, List.map_congr_left fun c hc => toLower_digit (h digits rfl c hc), List.map_id']

theorem eq_of_splitOnce {pat t before after : Text} (h : splitOnce pat t = some (before, after)) :
    t = before ++ pat ++ after := by
  induction t generalizing before with
  | nil =>
    rw [splitOnce] at h
    split at h
    · rename_i hpat
      obtain ⟨rfl, rfl⟩ := Prod.mk.inj (Option.some.inj h)
      rw [hpat]
      rfl
    · exact absurd h (by simp)
  | cons c t ih =>
    rw [splitOnce] at h
    split at h
    · rename_i hpat
      obtain ⟨rfl, rfl⟩ := Prod.mk.inj (Option.some.inj h)
      obtain ⟨tail, heq⟩ := List.isPrefixOf_iff_prefix.mp hpat
      rw [← heq, List.drop_left, List.nil_append]
    · obtain ⟨⟨before', after'⟩, hcut, heq⟩ := Option.map_eq_some_iff.mp h
      obtain ⟨rfl, rfl⟩ := Prod.mk.inj heq
      rw [List.cons_append, List.cons_append, ← ih hcut]

/-- The scheme is what stands before the first `://`. -/
theorem splitOnce_scheme {scheme : Text} (h : ':' ∉ scheme) (rest : Text) :
    splitOnce [':', '/', '/'] (scheme ++ [':', '/', '/'] ++ rest) = some (scheme, rest) := by
  induction scheme with
  | nil => rfl
  | cons c scheme ih =>
    have hc : c ≠ ':' := fun heq => h (heq ▸ List.mem_cons_self)
    have hnot : ([':', '/', '/'] : Text).isPrefixOf (c :: (scheme ++ [':', '/', '/'] ++ rest)) = false := by
      simp [List.isPrefixOf, hc.symm]
    rw [List.cons_append, List.cons_append, splitOnce, hnot, ih fun hmem => h (List.mem_cons_of_mem c hmem)]
    rfl

theorem stripSuffix_port {host : Text} {port : Option Text} {digits : Text} (hhost : Hosted host)
    (hport : ∀ digits ∈ port, Digits digits) (hdigits : Digits digits) :
    stripSuffix (':' :: digits) (host ++ portText port) =
      host ++ portText (port.filter fun own => own ≠ digits) := by
  rcases port with _ | own
  · have hnot : ¬(':' :: digits) <:+ host ++ portText none := by
      rintro ⟨before, heq⟩
      exact hhost.ne_port hdigits (heq.trans (List.append_nil host)).symm
    rw [stripSuffix, if_neg (by simpa using hnot)]
    rfl
  · by_cases hown : own = digits
    · subst hown
      have hsuffix : (':' :: own) <:+ host ++ portText (some own) := List.suffix_append _ _
      rw [stripSuffix, if_pos (by simpa using hsuffix), Option.filter_some, if_neg (by simp)]
      simp [portText]
    · have hnot : ¬(':' :: digits) <:+ host ++ portText (some own) := by
        rintro ⟨before, heq⟩
        exact hown (append_colon_inj (hdigits.not_mem (by decide)) ((hport own rfl).not_mem (by decide)) heq).2.symm
      rw [stripSuffix, if_neg (by simpa using hnot), Option.filter_some, if_pos (by simpa using hown)]

variable (u : BaseUrl)

theorem BaseUrl.port_digits' : ∀ digits ∈ u.port, Digits digits := fun digits h => (u.port_digits digits h).1

theorem BaseUrl.scheme_colon : ':' ∉ u.scheme := fun hmem => by
  have hlower : ':' ∈ asciiLowercase u.scheme := List.mem_map.mpr ⟨':', hmem, rfl⟩
  rcases u.scheme_web with h | h
  · exact absurd (h ▸ hlower) (by decide)
  · exact absurd (h ▸ hlower) (by decide)

theorem BaseUrl.defaultPort :
    defaultPort (asciiLowercase u.scheme) = some (':' :: Nat.toDigits 10 (schemePort u.scheme)) := by
  rcases u.scheme_web with h | h
  · rw [schemePort, h]
    decide
  · rw [schemePort, h]
    decide

/-- What the code takes for the authority. -/
theorem BaseUrl.authority :
    (u.host ++ portText u.port ++ u.tail).takeWhile (fun c => c ≠ '/' ∧ c ≠ '?' ∧ c ≠ '#') =
      u.host ++ portText u.port := by
  rw [List.takeWhile_append_of_pos]
  · rcases htail : u.tail with _ | ⟨c, tail⟩
    · simp
    · have hc := u.tail_head c (by rw [htail]; rfl)
      rw [List.takeWhile_cons_of_neg, List.append_nil]
      rcases hc with rfl | rfl | rfl
      all_goals simp
  · intro c hc
    rcases List.mem_append.mp hc with hc | hc
    · have hchar := u.host_char c hc
      exact decide_eq_true ⟨hchar.1, hchar.2.1, hchar.2.2.1⟩
    · rcases hport : u.port with _ | digits
      · rw [hport] at hc
        exact absurd hc (by simp [portText])
      · rw [hport] at hc
        rcases List.mem_cons.mp hc with rfl | hc
        · decide
        · have hdigit := digit_of_toDigit (u.port_digits' digits hport c hc)
          refine decide_eq_true ⟨?_, ?_, ?_⟩
          all_goals
            rintro rfl
            exact absurd hdigit (by decide)

/-- The trusted origin: the host in lowercase, and the port as it is written, unless it is the scheme's own,
    written as the code writes it. -/
theorem BaseUrl.originOf : originOf u.url = some (asciiLowercase u.scheme ++ [':', '/', '/'] ++
    (asciiLowercase u.host ++
      portText (u.port.filter fun own => own ≠ Nat.toDigits 10 (schemePort u.scheme)))) := by
  have hscheme : u.scheme ≠ [] := fun hnil => by
    rcases u.scheme_web with h | h
    · rw [hnil] at h
      exact absurd h (by decide)
    · rw [hnil] at h
      exact absurd h (by decide)
  rw [HttpGuard.originOf, BaseUrl.url, splitOnce_scheme u.scheme_colon]
  dsimp only
  rw [u.authority, if_neg (by simp [hscheme, u.host_ne_nil]), u.defaultPort]
  dsimp only
  rw [← stripSuffix_port u.host_hosted.asciiLowercase u.port_digits' (digits_toDigits _)]
  have hlower : asciiLowercase (u.host ++ portText u.port) = asciiLowercase u.host ++ portText u.port := by
    rw [asciiLowercase, List.map_append]
    exact congrArg _ (asciiLowercase_portText u.port_digits')
  rw [hlower]

/-- The code and a browser agree on a port written without zeros before it, and on those only. -/
theorem BaseUrl.port_agrees :
    (u.port.filter fun own => own ≠ Nat.toDigits 10 (schemePort u.scheme)) = (originPort u).map (Nat.toDigits 10) ↔
      ∀ digits ∈ u.port, digits = Nat.toDigits 10 (value 10 digits) := by
  rcases hport : u.port with _ | digits
  · simp [originPort, hport]
  · have hvalue : ∀ n, value 10 (Nat.toDigits 10 n) = n := fun n => (toDigits_spec (by decide) (by decide) n).2.1
    rw [originPort, hport]
    dsimp only
    by_cases hown : digits = Nat.toDigits 10 (schemePort u.scheme)
    · have hdefault : value 10 digits = schemePort u.scheme := hown ▸ hvalue _
      rw [if_pos (Or.inr hdefault)]
      simp [hown, hvalue]
    · by_cases hempty : digits = []
      · subst hempty
        simp [hown, Nat.toDigits_ne_nil.symm]
      · by_cases hdefault : value 10 digits = schemePort u.scheme
        · rw [if_pos (Or.inr hdefault)]
          simp [hown, hdefault]
        · rw [if_neg (by simp [hempty, hdefault]), Option.filter_some, if_pos (by simpa using hown)]
          simp

/-- The trusted origin is the browser's when host and port are written as a browser writes them. -/
theorem BaseUrl.origin_agrees (serialise : Text → Text) (hserialise : Hosted (serialise u.host)) :
    HttpGuard.originOf u.url = some (browserOrigin serialise u) ↔
      serialise u.host = asciiLowercase u.host ∧ ∀ digits ∈ u.port, digits = Nat.toDigits 10 (value 10 digits) := by
  rw [u.originOf, browserOrigin, ← u.port_agrees, Option.some.injEq, List.append_cancel_left_eq]
  constructor
  · intro h
    have hkept : ∀ digits ∈ u.port.filter (fun own => own ≠ Nat.toDigits 10 (schemePort u.scheme)),
        Digits digits := fun digits hdigits => u.port_digits' digits (Option.mem_filter_iff.mp hdigits).1
    have hnumber : ∀ digits ∈ (originPort u).map (Nat.toDigits 10), Digits digits := fun digits hdigits => by
      obtain ⟨n, _, rfl⟩ := Option.map_eq_some_iff.mp hdigits
      exact digits_toDigits n
    obtain ⟨hhost, hport⟩ := host_port_inj u.host_hosted.asciiLowercase hserialise hkept hnumber h
    exact ⟨hhost.symm, hport⟩
  · rintro ⟨hhost, hport⟩
    rw [hhost, hport]

end Home.HttpGuard
