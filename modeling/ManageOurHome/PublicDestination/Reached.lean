import ManageOurHome.PublicDestination.Registries

/-! @src apps/api/src/public_destination.rs, apps/api/src/recipes/import.rs | layer:proof | family:outbound

    What an import reaches, whatever the URL, the redirects and what the names resolve to. Each URL requested has passed
    the check, the first one and the ones redirected to; so a literal address is public, and a name is left with public
    ones, each time it is looked up.

        importUrl ── checked ──▶ request ──┬─▶ connect: public
                        ▲                  └─▶ location
                        └── redirectPolicy ───────┘ -/

namespace Home.PublicDestination

open Net

variable {web : Web} {raw : Text} {s s' : Import web}

/-- What reqwest takes for a literal address, the host reads as that address once its brackets are off. -/
structure Web.Normalises (web : Web) : Prop where
  literal : ∀ url ip, web.literal url = some ip →
    ∃ host, web.hostStr url = some host ∧ parseIpAddr (trimBrackets host) = some ip

/-- The address is in none of the ranges, and neither is an IPv4 one that it carries. -/
def Outside (specialV4 : List (Ipv4Addr × ℕ)) (specialV6 : List (Ipv6Addr × ℕ)) : IpAddr → Prop
  | .V4 v4 => ∀ range ∈ specialV4, ¬InV4 range v4
  | .V6 v6 => (∀ range ∈ specialV6, ¬InV6 range v6) ∧ ∀ v4, Carries v6 v4 → ∀ range ∈ specialV4, ¬InV4 range v4

theorem outside_of_public {ip : IpAddr} (h : isPublicIp ip = true) : Outside SPECIAL_V4 SPECIAL_V6 ip := by
  cases ip with
  | V4 v4 => exact public_v4 h
  | V6 v6 => exact ⟨public_v6 h, fun v4 hcarries => public_v4 (public_carried h hcarries)⟩

/-! ### One request -/

/-- What the check lets through. -/
theorem scheme_of_checkUrl {url : web.Url} (h : checkUrl web url = .ok ()) :
    web.scheme url = "http".toList ∨ web.scheme url = "https".toList := by
  rw [checkUrl] at h
  split at h
  · exact absurd h (by simp)
  · rename_i hscheme
    by_cases hhttp : web.scheme url = "http".toList
    · exact .inl hhttp
    · exact .inr (not_not.mp fun hhttps => hscheme ⟨hhttp, hhttps⟩)

theorem public_of_checkUrl (hweb : web.Normalises) {url : web.Url} {ip : IpAddr} (h : checkUrl web url = .ok ())
    (hip : web.literal url = some ip) : isPublicIp ip = true := by
  obtain ⟨host, hhost, hparse⟩ := hweb.literal url ip hip
  have hne : host ≠ [] := by
    rintro rfl
    exact absurd (hparse.symm.trans (by decide : parseIpAddr (trimBrackets []) = none)) (by simp)
  rw [checkUrl] at h
  split at h
  · exact absurd h (by simp)
  · have hfilter : (web.hostStr url).filter (· ≠ []) = some host := by
      rw [hhost, Option.filter_some, if_pos (decide_eq_true hne)]
    simp only [hfilter, hparse] at h
    split at h
    · exact absurd h (by simp)
    · rename_i hpublic
      simpa using hpublic

theorem public_of_publicOnly {answer kept : List IpAddr} (h : publicOnly answer = .ok kept) :
    ∀ ip ∈ kept, isPublicIp ip = true := by
  intro ip hip
  rw [publicOnly] at h
  split at h
  · exact absurd h (by simp)
  · obtain rfl := Except.ok.inj h
    exact (List.mem_filter.mp hip).2

theorem checkUrl_of_importUrl {url : web.Url} (h : importUrl web raw = .ok url) : checkUrl web url = .ok () := by
  rw [importUrl] at h
  cases hparse : web.parse (trim raw) with
  | none => simp [hparse] at h
  | some url' =>
    simp only [hparse] at h
    cases hcheck : checkUrl web url' with
    | error refusal => simp [hcheck] at h
    | ok _ =>
      simp only [hcheck] at h
      split at h
      · exact absurd h (by simp)
      · obtain rfl := Except.ok.inj h
        exact hcheck

/-! ### The whole import -/

/-- What an import has asked for: URLs that passed the check, few of them, and public addresses. -/
structure Import.Kept (s : Import web) : Prop where
  checked : ∀ url ∈ s.requested, checkUrl web url = .ok ()
  hops : s.requested.length ≤ 1 + MAX_REDIRECTS
  public_ : ∀ ip ∈ s.connected, isPublicIp ip = true

/-- STEP. -/
theorem Import.Kept.step (hweb : web.Normalises) (h : s.Kept) (hstep : Import.Step web s s') : s'.Kept := by
  cases hstep with
  | literal url ip hurl hip =>
    refine ⟨h.checked, h.hops, fun a ha => ?_⟩
    rcases List.mem_append.mp ha with ha | ha
    · exact h.public_ a ha
    · rw [List.mem_singleton.mp ha]
      exact public_of_checkUrl hweb (h.checked url (List.mem_of_getLast? hurl)) hip
  | resolved url answer kept ip hurl hname hresolve hip =>
    refine ⟨h.checked, h.hops, fun a ha => ?_⟩
    rcases List.mem_append.mp ha with ha | ha
    · exact h.public_ a ha
    · rw [List.mem_singleton.mp ha]
      exact public_of_publicOnly hresolve ip hip
  | redirect location hredirect =>
    rw [redirectPolicy] at hredirect
    split at hredirect
    · exact absurd hredirect (by simp)
    · rename_i hhops
      refine ⟨fun url hurl => ?_, ?_, h.public_⟩
      · rcases List.mem_append.mp hurl with hurl | hurl
        · exact h.checked url hurl
        · rw [List.mem_singleton.mp hurl]
          exact hredirect
      · rw [List.length_append, List.length_singleton]
        omega

/-- RUN. -/
theorem Import.Reachable.kept (hweb : web.Normalises) (h : Import.Reachable web raw s) : s.Kept := by
  induction h with
  | start url hurl =>
    refine ⟨fun url' hurl' => ?_, by simp, fun ip hip => absurd hip List.not_mem_nil⟩
    rw [List.mem_singleton.mp hurl']
    exact checkUrl_of_importUrl hurl
  | step s s' _ hstep ih => exact ih.step hweb hstep

/-- CORRECT: whatever a member submits, and whatever is answered, an import connects to no address of a special range but
    the mapped ones, judged by the IPv4 address they carry, and the 6a44 relay's; it requests web URLs, and at most
    `1 + MAX_REDIRECTS` of them. -/
theorem import_reaches (hweb : web.Normalises) (h : Import.Reachable web raw s) :
    (∀ ip ∈ s.connected, Outside SPECIAL_V4 SPECIAL_V6 ip) ∧
    (∀ url ∈ s.requested, web.scheme url = "http".toList ∨ web.scheme url = "https".toList) ∧
    s.requested.length ≤ 1 + MAX_REDIRECTS := by
  have hkept := h.kept hweb
  exact ⟨fun ip hip => outside_of_public (hkept.public_ ip hip),
    fun url hurl => scheme_of_checkUrl (hkept.checked url hurl), hkept.hops⟩

/-! ### Literal addresses -/

/-- The crates, on one URL whose host is `ip`, written `host`. -/
def literalWeb (url host : Text) (ip : IpAddr) : Web where
  Url := Unit
  parse text := if text = url then some () else none
  asStr _ := url
  scheme _ := "http".toList
  hostStr _ := some host
  literal _ := some ip

theorem literalWeb_normalises {url host : Text} {ip : IpAddr} (h : parseIpAddr (trimBrackets host) = some ip) :
    (literalWeb url host ip).Normalises where
  literal _ ip' hip := by
    obtain rfl := Option.some.inj hip
    exact ⟨host, rfl, h⟩

/-- A public literal is connected to. -/
theorem reachable_literal {url host : Text} {ip : IpAddr} (htrim : trim url = url) (hlen : url.length ≤ SOURCE_URL_MAX_LEN)
    (hparse : parseIpAddr (trimBrackets host) = some ip) (hne : host ≠ []) (hpublic : isPublicIp ip = true) :
    Import.Reachable (literalWeb url host ip) url ⟨[()], [ip]⟩ := by
  have hcheck : checkUrl (literalWeb url host ip) () = .ok () := by
    have hhost : ((literalWeb url host ip).hostStr ()).filter (· ≠ []) = some host := by
      simp [literalWeb, Option.filter_some, hne]
    have hscheme : (literalWeb url host ip).scheme () = "http".toList := rfl
    simp only [checkUrl, hscheme, hhost, hparse, hpublic, ne_eq, not_true_eq_false, false_and, if_false, Bool.not_true,
      Bool.false_eq_true]
  have hvalid : validSourceUrl (literalWeb url host ip) url = some url := by
    simp [validSourceUrl, literalWeb, htrim, hne, not_lt.mpr hlen]
  have himport : importUrl (literalWeb url host ip) url = .ok () := by
    have hread : (literalWeb url host ip).parse (trim url) = some () := by simp [literalWeb, htrim]
    have hstr : (literalWeb url host ip).asStr () = url := rfl
    simp only [importUrl, hread, hcheck, hstr, hvalid]
  have hstart : Import.Reachable (literalWeb url host ip) url ⟨[()], []⟩ :=
    @Import.Reachable.start (literalWeb url host ip) url () himport
  exact .step _ _ hstart (@Import.Step.literal (literalWeb url host ip) ⟨[()], []⟩ () ip rfl rfl)

/-- `http://1.1.1.1/`. -/
theorem import_reaches_public : ∃ s, Import.Reachable (literalWeb "http://1.1.1.1/".toList "1.1.1.1".toList
    (.V4 ⟨1, 1, 1, 1⟩)) "http://1.1.1.1/".toList s ∧ s.connected = [.V4 ⟨1, 1, 1, 1⟩] ∧
    Outside SPECIAL_V4 SPECIAL_V6 (.V4 ⟨1, 1, 1, 1⟩) := by
  have hparse : parseIpAddr (trimBrackets "1.1.1.1".toList) = some (.V4 ⟨1, 1, 1, 1⟩) := by decide +kernel
  have hreachable := reachable_literal (by decide +kernel : trim "http://1.1.1.1/".toList = _) (by decide) hparse
    (by simp) (by decide +kernel)
  refine ⟨_, hreachable, rfl, ?_⟩
  exact (import_reaches (literalWeb_normalises hparse) hreachable).1 _ (List.mem_singleton_self _)

/-- `::ffff:1.1.1.1`. -/
def mappedOne : Ipv6Addr := ⟨[0, 0, 0, 0, 0, 0xffff, 0x101, 0x101], rfl⟩

/-- The mapped range and the relay's are reached: `http://[::ffff:101:101]/`, and `http://192.88.99.2/`. -/
theorem mapped_and_relay_reached :
    (¬∀ (web : Web) (raw : Text) (s : Import web), web.Normalises → Import.Reachable web raw s →
      ∀ ip ∈ s.connected, Outside SPECIAL_V4 (IPV4_MAPPED :: SPECIAL_V6) ip) ∧
    ¬∀ (web : Web) (raw : Text) (s : Import web), web.Normalises → Import.Reachable web raw s →
      ∀ ip ∈ s.connected, Outside (RELAY_6A44 :: SPECIAL_V4) SPECIAL_V6 ip := by
  constructor
  · intro hclaim
    have hparse : parseIpAddr (trimBrackets "[::ffff:101:101]".toList) = some (.V6 mappedOne) := by decide +kernel
    have hreachable := reachable_literal (by decide +kernel : trim "http://[::ffff:101:101]/".toList = _) (by decide)
      hparse (by simp) (by decide +kernel)
    have houtside := hclaim _ _ _ (literalWeb_normalises hparse) hreachable _ (List.mem_singleton_self _)
    exact houtside.1 IPV4_MAPPED List.mem_cons_self (by unfold InV6; decide +kernel)
  · intro hclaim
    have hparse : parseIpAddr (trimBrackets "192.88.99.2".toList) = some (.V4 ⟨192, 88, 99, 2⟩) := by decide +kernel
    have hreachable := reachable_literal (by decide +kernel : trim "http://192.88.99.2/".toList = _) (by decide)
      hparse (by simp) (by decide +kernel)
    have houtside := hclaim _ _ _ (literalWeb_normalises hparse) hreachable _ (List.mem_singleton_self _)
    exact houtside RELAY_6A44 List.mem_cons_self rfl

end Home.PublicDestination
