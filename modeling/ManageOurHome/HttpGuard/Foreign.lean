import ManageOurHome.HttpGuard.BaseUrl

/-! @src apps/http_guard/src/origin.rs | layer:proof | family:cross-origin

    No foreign page changes anything: a request that could, and that a browser marked, passes on one of
    three grounds only, and marking it further does not help it. The trusted origin is the one a browser
    writes for the pages of the base URL as long as the URL writes host and port as a browser does. -/

namespace Home.HttpGuard

variable {headers headers' : HeaderMap} {method : Method} {trusted : Option Text}

/-! ### What lets a request through -/

/-- A method that cannot change anything. -/
def Safe (method : Method) : Prop := method = .GET ∨ method = .HEAD ∨ method = .OPTIONS

/-- Some `Upgrade` value is text with a `websocket` token, in any case. -/
def AsksForWebSocket (headers : HeaderMap) : Prop :=
  ∃ v ∈ getAll headers .UPGRADE, ∃ s, toStr v = some s ∧
    ∃ token ∈ s.splitOn ',', asciiLowercase (trim token) = websocket

/-- The first value of a header is the text `s`. -/
def Says (headers : HeaderMap) (name : Name) (s : Text) : Prop :=
  ∃ v, (getAll headers name).head? = some v ∧ toStr v = some s

theorem isWebsocketUpgrade_iff : isWebsocketUpgrade headers = true ↔ AsksForWebSocket headers := by
  rw [isWebsocketUpgrade, List.any_eq_true]
  constructor
  · rintro ⟨token, htoken, heq⟩
    obtain ⟨s, hs, htoken⟩ := List.mem_flatMap.mp htoken
    obtain ⟨v, hv, hstr⟩ := List.mem_filterMap.mp hs
    exact ⟨v, hv, s, hstr, token, htoken, of_decide_eq_true heq⟩
  · rintro ⟨v, hv, s, hstr, token, htoken, heq⟩
    exact ⟨token, List.mem_flatMap.mpr ⟨s, List.mem_filterMap.mpr ⟨v, hv, hstr⟩, htoken⟩,
      decide_eq_true heq⟩

/-- A value compared with a text that is not empty is that text. -/
theorem says_of_text {name : Name} {s : Text} (h : text headers name = some s) (hs : s ≠ []) :
    Says headers name s := by
  obtain ⟨v, hv, rfl⟩ := Option.map_eq_some_iff.mp h
  rcases hstr : toStr v with _ | s
  · rw [hstr] at hs
    exact absurd rfl hs
  · exact ⟨v, hv, hstr⟩

theorem text_eq_none {name : Name} (h : text headers name = none) : getAll headers name = [] :=
  List.head?_eq_none_iff.mp (Option.map_eq_none_iff.mp h)

theorem asciiLowercase_eq_nil {s : Text} (h : asciiLowercase s = []) : s = [] := List.map_eq_nil_iff.mp h

/-- The Host rule: the `Origin` names the request's `Host`. -/
def NamesHost (headers : HeaderMap) : Prop :=
  ∃ origin scheme authority host, Says headers .ORIGIN origin ∧
    splitOnce [':', '/', '/'] origin = some (scheme, authority) ∧ Says headers .HOST host ∧ host ≠ [] ∧
    asciiLowercase authority = asciiLowercase host

theorem matchesTrusted_eq_true {origin : Option Text} (h : matchesTrusted origin trusted = true) :
    ∃ o t, origin = some o ∧ trusted = some t ∧ asciiLowercase o = asciiLowercase t := by
  rcases origin with _ | o
  · exact absurd h (by simp [matchesTrusted])
  · rcases trusted with _ | t
    · exact absurd h (by simp [matchesTrusted])
    · exact ⟨o, t, rfl, rfl, of_decide_eq_true h⟩

theorem judgeHost_eq_allow (h : judgeHost (text headers .HOST) (text headers .ORIGIN) = .Allow) :
    getAll headers .ORIGIN = [] ∨ NamesHost headers := by
  rcases horigin : text headers .ORIGIN with _ | origin
  · exact Or.inl (text_eq_none horigin)
  · rw [horigin, judgeHost.eq_def] at h
    dsimp only at h
    split at h
    · rename_i authority host hauthority hhost
      split at h
      · rename_i hsame
        obtain ⟨⟨scheme, rest⟩, hsplit, rfl⟩ := Option.map_eq_some_iff.mp hauthority
        refine Or.inr ⟨origin, scheme, rest, host, says_of_text horigin ?_, hsplit,
          says_of_text hhost hsame.1, hsame.1, of_decide_eq_true hsame.2⟩
        rintro rfl
        exact absurd hsplit (by simp [splitOnce])
      · exact absurd h (by simp)
    · exact absurd h (by simp)

/-- A request that is judged and passes: each header at most once, and why. -/
theorem judge_eq_allow (hjudged : ¬Safe method ∨ AsksForWebSocket headers) (htrusted : trusted ≠ some [])
    (h : judge method headers trusted = .Allow) :
    (getAll headers .ORIGIN).length ≤ 1 ∧ (getAll headers .SEC_FETCH_SITE).length ≤ 1 ∧
      ((∃ origin t, Says headers .ORIGIN origin ∧ trusted = some t ∧ asciiLowercase origin = asciiLowercase t) ∨
        Says headers .SEC_FETCH_SITE sameOrigin ∨ Says headers .SEC_FETCH_SITE noSite ∨
        (getAll headers .SEC_FETCH_SITE = [] ∧ (getAll headers .ORIGIN = [] ∨ NamesHost headers))) := by
  rw [judge] at h
  split at h
  · rename_i hsafe
    obtain ⟨hsafe, hupgrade⟩ := hsafe
    rcases hjudged with hunsafe | hasks
    · exact absurd hsafe hunsafe
    · rw [isWebsocketUpgrade_iff.mpr hasks] at hupgrade
      exact absurd hupgrade (by simp)
  · split at h
    · exact absurd h (by simp)
    · rename_i hone
      split at h
      · exact absurd h (by simp)
      · rename_i hsite
        refine ⟨not_lt.mp hone, not_lt.mp hsite, ?_⟩
        split at h
        · rename_i hmatches
          obtain ⟨origin, t, horigin, ht, heq⟩ := matchesTrusted_eq_true hmatches
          refine Or.inl ⟨origin, t, says_of_text horigin ?_, ht, heq⟩
          rintro rfl
          exact htrusted (ht.trans (congrArg some (asciiLowercase_eq_nil heq.symm)))
        · split at h
          · rename_i site hsaid
            split at h
            · rename_i hgood
              rcases hgood with rfl | rfl
              · exact Or.inr (Or.inl (says_of_text hsaid (by decide)))
              · exact Or.inr (Or.inr (Or.inl (says_of_text hsaid (by decide))))
            · exact absurd h (by simp)
          · rename_i hnosite
            exact Or.inr (Or.inr (Or.inr ⟨text_eq_none hnosite, judgeHost_eq_allow h⟩))

/-- The same headers carried, `Origin` and `Sec-Fetch-Site` with further values where there was one. -/
structure Marked (headers headers' : HeaderMap) : Prop where
  kept : ∀ name, name ≠ .ORIGIN → name ≠ .SEC_FETCH_SITE → getAll headers' name = getAll headers name
  added : ∀ name, (getAll headers name).Sublist (getAll headers' name)
  carried : ∀ name, getAll headers name = [] → getAll headers' name = []

theorem judge_congr (h : ∀ name, getAll headers' name = getAll headers name) :
    judge method headers' trusted = judge method headers trusted := by
  have htext : text headers' = text headers := funext fun name => by rw [text, text, h]
  have hupgrade : isWebsocketUpgrade headers' = isWebsocketUpgrade headers := by
    rw [isWebsocketUpgrade, isWebsocketUpgrade, h]
  rw [judge, judge, hupgrade, htext, h, h]

/-- A request refused stays so, marked further. -/
theorem judge_marked (hmarked : Marked headers headers') (h : judge method headers trusted = .Refuse) :
    judge method headers' trusted = .Refuse := by
  have hupgrade : isWebsocketUpgrade headers' = isWebsocketUpgrade headers := by
    rw [isWebsocketUpgrade, hmarked.kept _ (by simp) (by simp), isWebsocketUpgrade]
  have hgrown : ∀ name, getAll headers' name ≠ getAll headers name → 1 < (getAll headers' name).length :=
    fun name hne => by
      have hle := (hmarked.added name).length_le
      have hpos : 0 < (getAll headers name).length :=
        List.length_pos_iff.mpr fun hnil => hne ((hmarked.carried name hnil).trans hnil.symm)
      have hlt : (getAll headers name).length ≠ (getAll headers' name).length := fun heq =>
        hne ((hmarked.added name).eq_of_length heq).symm
      omega
  by_cases hall : ∀ name, getAll headers' name = getAll headers name
  · rw [judge_congr hall, h]
  · obtain ⟨name, hne⟩ := not_forall.mp hall
    have htwice : 1 < (getAll headers' .ORIGIN).length ∨ 1 < (getAll headers' .SEC_FETCH_SITE).length := by
      by_cases horigin : name = .ORIGIN
      · exact Or.inl (horigin ▸ hgrown name hne)
      · by_cases hsite : name = .SEC_FETCH_SITE
        · exact Or.inr (hsite ▸ hgrown name hne)
        · exact absurd (hmarked.kept name horigin hsite) hne
    have hnotsafe : ¬((method = .GET ∨ method = .HEAD ∨ method = .OPTIONS) ∧ !isWebsocketUpgrade headers) :=
      fun hsafe => by
        rw [judge, if_pos hsafe] at h
        exact absurd h (by simp)
    rw [← hupgrade] at hnotsafe
    rw [judge, if_neg hnotsafe]
    split
    · rfl
    · rename_i hone
      rw [if_pos (htwice.resolve_left hone)]

/-- A trusted origin is not empty. -/
theorem originOf_ne_nil (base : Text) : originOf base ≠ some [] := by
  rw [originOf]
  split
  · simp
  · dsimp only
    split_ifs
    · simp
    · simp

/-! ### The guard -/

/-- NO FOREIGN PAGE CHANGES ANYTHING: a marked request that can change something passes on three grounds
    only, and a refused one stays so, marked further. The trusted origin is the browser's for the base URLs
    that write host and port as a browser does, and for those only. -/
theorem foreign_refused (serialise : Text → Text) (u : BaseUrl) (hserialise : Hosted (serialise u.host)) :
    (∀ (base : Text) (method : Method) (headers : HeaderMap), ¬Safe method ∨ AsksForWebSocket headers →
      getAll headers .ORIGIN ≠ [] ∨ getAll headers .SEC_FETCH_SITE ≠ [] →
      judge method headers (originOf base) = .Allow →
        (getAll headers .ORIGIN).length ≤ 1 ∧ (getAll headers .SEC_FETCH_SITE).length ≤ 1 ∧
          ((∃ origin t, Says headers .ORIGIN origin ∧ originOf base = some t ∧
              asciiLowercase origin = asciiLowercase t) ∨
            Says headers .SEC_FETCH_SITE sameOrigin ∨ Says headers .SEC_FETCH_SITE noSite ∨
            (getAll headers .SEC_FETCH_SITE = [] ∧ NamesHost headers))) ∧
      (∀ (base : Text) (method : Method) (headers headers' : HeaderMap), Marked headers headers' →
        judge method headers (originOf base) = .Refuse → judge method headers' (originOf base) = .Refuse) ∧
      (originOf u.url = some (browserOrigin serialise u) ↔
        serialise u.host = asciiLowercase u.host ∧
          ∀ digits ∈ u.port, digits = Nat.toDigits 10 (Net.value 10 digits)) := by
  refine ⟨fun base method headers hjudged hmarked h => ?_,
    fun base method headers headers' hmarked h => judge_marked hmarked h, u.origin_agrees serialise hserialise⟩
  obtain ⟨hone, hsite, hwhy⟩ := judge_eq_allow hjudged (originOf_ne_nil base) h
  refine ⟨hone, hsite, ?_⟩
  rcases hwhy with htrusted | hsame | hnone | ⟨hsilent, hhost⟩
  · exact Or.inl htrusted
  · exact Or.inr (Or.inl hsame)
  · exact Or.inr (Or.inr (Or.inl hnone))
  · refine Or.inr (Or.inr (Or.inr ⟨hsilent, hhost.resolve_left fun hnil => ?_⟩))
    rcases hmarked with hmarked | hmarked
    · exact hmarked hnil
    · exact hmarked hsilent

/-- `HTTPS://Maison.Test:443/x`. -/
def shouted : BaseUrl where
  scheme := ['H', 'T', 'T', 'P', 'S']
  host := ['M', 'a', 'i', 's', 'o', 'n', '.', 'T', 'e', 's', 't']
  port := some ['4', '4', '3']
  tail := ['/', 'x']
  scheme_web := by decide
  host_ne_nil := by decide
  host_hosted := Or.inl (by decide)
  host_char := List.all_iff_forall_prop.mp (by decide)
  port_digits := by
    intro digits h
    obtain rfl := Option.some.inj h
    exact ⟨List.all_iff_forall_prop.mp (by decide), by decide⟩
  tail_head := by simp

/-- Case, path and default port do not count. -/
theorem foreign_refused_shouted : Hosted (asciiLowercase shouted.host) ∧
    originOf shouted.url = some (browserOrigin asciiLowercase shouted) :=
  ⟨shouted.host_hosted.asciiLowercase,
    (foreign_refused asciiLowercase shouted shouted.host_hosted.asciiLowercase).2.2.mpr ⟨rfl, by
      intro digits h
      obtain rfl := Option.some.inj h
      decide⟩⟩

/-- `http://maison.test:080`. -/
def padded : BaseUrl where
  scheme := http
  host := ['m', 'a', 'i', 's', 'o', 'n', '.', 't', 'e', 's', 't']
  port := some ['0', '8', '0']
  tail := []
  scheme_web := by decide
  host_ne_nil := by decide
  host_hosted := Or.inl (by decide)
  host_char := List.all_iff_forall_prop.mp (by decide)
  port_digits := by
    intro digits h
    obtain rfl := Option.some.inj h
    exact ⟨List.all_iff_forall_prop.mp (by decide), by decide⟩
  tail_head := by simp

/-- A page of the base URL, refused: its own origin is not the trusted one. -/
theorem own_page_refused :
    ¬(∀ u : BaseUrl, Hosted (asciiLowercase u.host) →
        originOf u.url = some (browserOrigin asciiLowercase u)) ∧
      originOf padded.url = some (http ++ [':', '/', '/'] ++ padded.host ++ [':', '0', '8', '0']) ∧
      browserOrigin asciiLowercase padded = http ++ [':', '/', '/'] ++ padded.host :=
  ⟨fun h => absurd (h padded padded.host_hosted.asciiLowercase) (by decide), by decide, by decide⟩

end Home.HttpGuard
