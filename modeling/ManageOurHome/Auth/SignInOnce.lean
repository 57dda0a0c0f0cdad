import Mathlib.Data.List.Nodup
import ManageOurHome.Auth.GoogleIdToken

/-! @src apps/api/src/auth/google_id_token.rs | layer:proof | family:authentication

    A token signs in once, in the browser that asked for it. A nonce is of one issue, so of one browser; what a request
    reads in its cookie was issued to its browser, and what it spends was in the table: issued less than its time ago, and
    spent by nobody. The nonce of a token is in the token: two sessions of one token would spend it twice.

        minted ⊇ issued ⊇ in the table, or spent, or expired
                          sessions ⊆ spent, each nonce once -/

namespace Home.Auth.GoogleIdToken

variable {jwt : Jwt} {B R H : Type} {tokenHash : Text → Option H} {audience : Text}
  {s s' : Db B R H} {l l' : Pc B R H}

/-- What a token says does not depend on the key it is checked with. -/
def Jwt.SamePayload (jwt : Jwt) : Prop :=
  ∀ token key key' claims claims', jwt.decode token key = .ok claims → jwt.decode token key' = .ok claims' →
    claims = claims'

/-- No two nonces have one hash. -/
def NoCollision (tokenHash : Text → Option H) : Prop :=
  ∀ nonce nonce' hash, tokenHash nonce = some hash → tokenHash nonce' = some hash → nonce = nonce'

/-! ### The token -/

/-- What the verification accepts: signed, for this server, by an allowed issuer, in time, with a verified email, and
    carrying the nonce of the cookie. -/
structure Accepted (jwt : Jwt) (audience token nonce : Text) (now : ℕ) (claims : IdTokenClaims) : Prop where
  signed : ∃ key, jwt.decode token key = .ok claims
  carries : claims.nonce = some nonce
  iss : claims.iss ∈ ALLOWED_ISSUERS
  aud : claims.aud = audience
  exp : now ≤ claims.exp + CLOCK_SKEW
  emailVerified : claims.emailVerified = true

theorem carries_eq_true {cookie nonce : Option Text} (h : carries cookie nonce = true) :
    ∃ n, cookie = some n ∧ nonce = some n := by
  cases cookie with
  | none => exact absurd h (by simp [carries])
  | some expected =>
    cases nonce with
    | none => exact absurd h (by simp [carries])
    | some n =>
      simp only [carries, Bool.and_eq_true, decide_eq_true_eq] at h
      exact ⟨n, by rw [h.2], rfl⟩

theorem accepted_of_validateClaims {claims : IdTokenClaims} {cookie : Option Text} {token : Text} {now : ℕ}
    {key : jwt.Key} {profile : GoogleProfile} (hdecode : jwt.decode token key = .ok claims)
    (h : validateClaims claims audience cookie now = .ok profile) :
    ∃ nonce, cookie = some nonce ∧ Accepted jwt audience token nonce now claims := by
  simp only [validateClaims] at h
  split_ifs at h with hiss haud hexp hnonce hemail
  simp only [Bool.not_eq_true', Bool.not_eq_false] at hnonce hemail
  obtain ⟨n, hcookie, hn⟩ := carries_eq_true hnonce
  have hle : now ≤ claims.exp + CLOCK_SKEW := (not_lt.mp hexp).trans (Nat.min_le_left _ _)
  exact ⟨n, hcookie, ⟨⟨key, hdecode⟩, hn, hiss, not_not.mp haud, hle, hemail⟩⟩

/-- STEP: what the verification accepts. -/
theorem accepted_of_verify {jwks : Text → Except Unit (Option jwt.Key)} {token : Text} {cookie : Option Text} {now : ℕ}
    {profile : GoogleProfile} (h : verify jwt jwks audience token cookie now = .ok profile) :
    ∃ nonce claims, cookie = some nonce ∧ Accepted jwt audience token nonce now claims := by
  simp only [verify] at h
  split at h
  · exact absurd h (by simp)
  · split at h
    · exact absurd h (by simp)
    · exact absurd h (by simp)
    · split at h
      · exact absurd h (by simp)
      · exact absurd h (by simp)
      · rename_i claims hdecode
        split at h
        · exact absurd h (by simp)
        · rename_i hclaims
          obtain ⟨nonce, hcookie, haccepted⟩ := accepted_of_validateClaims hdecode hclaims
          exact ⟨nonce, claims, hcookie, haccepted⟩

/-! ### What is kept -/

/-- The nonce was issued to the browser, by `at_`. -/
def IssuedTo (s : Db B R H) (b : B) (nonce : Text) (at_ : ℤ) : Prop := ∃ i ∈ s.issues, i = ⟨nonce, b, i.at_⟩ ∧ i.at_ ≤ at_

/-- A nonce was spent as it must: of an accepted token, issued to the browser, less than its time ago. -/
structure Spent (jwt : Jwt) (audience : Text) (s : Db B R H) (x : SignIn B R) : Prop where
  accepted : ∃ claims, Accepted jwt audience x.token x.nonce x.now claims
  issued : ∃ i ∈ s.issues, i = ⟨x.nonce, x.browser, i.at_⟩ ∧ i.at_ ≤ x.at_ ∧ x.at_ < i.at_ + NONCE_TTL

structure Kept (jwt : Jwt) (tokenHash : Text → Option H) (audience : Text) (s : Db B R H) : Prop where
  minted : (s.minted.map Prod.fst).Nodup
  issues : (s.issues.map Issue.nonce).Nodup
  issued : ∀ i ∈ s.issues, i.nonce ∈ s.minted.map Prod.fst ∧ i.at_ ≤ s.clock
  cookies : ∀ b nonce, s.cookies b = some nonce → IssuedTo s b nonce s.clock
  table : ∀ hash expiresAt, s.table hash = some expiresAt →
    ∃ i ∈ s.issues, tokenHash i.nonce = some hash ∧ expiresAt = i.at_ + NONCE_TTL ∧ i.nonce ∉ s.spent.map SignIn.nonce
  live : ∀ i ∈ s.issues, i.nonce ∉ s.spent.map SignIn.nonce → s.clock < i.at_ + NONCE_TTL →
    ∃ hash, tokenHash i.nonce = some hash ∧ s.table hash = some (i.at_ + NONCE_TTL)
  spent : ∀ x ∈ s.spent, Spent jwt audience s x
  once : (s.spent.map SignIn.nonce).Nodup
  sessions : ∀ x ∈ s.sessions, x ∈ s.spent
  opened : s.sessions.Nodup

/-- What a request knows, where it is. -/
def Knows (jwt : Jwt) (tokenHash : Text → Option H) (audience : Text) (request : R) (s : Db B R H) : Pc B R H → Prop
  | .idle r => r = request ∧ ∀ x ∈ s.sessions, x.request ≠ request
  | .minted r _ nonce => r = request ∧ (∀ x ∈ s.sessions, x.request ≠ request) ∧ (nonce, r) ∈ s.minted ∧
      nonce ∉ s.issues.map Issue.nonce
  | .issuing r _ nonce now => r = request ∧ (∀ x ∈ s.sessions, x.request ≠ request) ∧ (nonce, r) ∈ s.minted ∧
      nonce ∉ s.issues.map Issue.nonce ∧ now ≤ s.clock
  | .answering _ b nonce => IssuedTo s b nonce s.clock
  | .posted r b cookie _ _ => r = request ∧ (∀ x ∈ s.sessions, x.request ≠ request) ∧
      ∀ nonce, cookie = some nonce → IssuedTo s b nonce s.clock
  | .verified r b cookie token now => r = request ∧ (∀ x ∈ s.sessions, x.request ≠ request) ∧
      ∃ nonce claims, cookie = some nonce ∧ IssuedTo s b nonce s.clock ∧ Accepted jwt audience token nonce now claims
  | .spending hash x => x.request = request ∧ (∀ y ∈ s.sessions, y.request ≠ request) ∧
      tokenHash x.nonce = some hash ∧ IssuedTo s x.browser x.nonce x.at_ ∧
      ∃ claims, Accepted jwt audience x.token x.nonce x.now claims
  | .spent x => x.request = request ∧ (∀ y ∈ s.sessions, y.request ≠ request) ∧ x ∈ s.spent
  | .ended => True

theorem IssuedTo.mono {b : B} {nonce : Text} {at_ at' : ℤ} (h : IssuedTo s b nonce at_)
    (hissues : ∀ i ∈ s.issues, i ∈ s'.issues) (hat : at_ ≤ at') : IssuedTo s' b nonce at' := by
  obtain ⟨i, hi, heq, hle⟩ := h
  exact ⟨i, hissues i hi, heq, hle.trans hat⟩

theorem Spent.mono {x : SignIn B R} (h : Spent jwt audience s x) (hissues : ∀ i ∈ s.issues, i ∈ s'.issues) :
    Spent jwt audience s' x := by
  obtain ⟨i, hi, hissue⟩ := h.issued
  exact ⟨h.accepted, i, hissues i hi, hissue⟩

/-- What a step leaves to a request that does not take it. -/
structure Leaves (request : R) (s s' : Db B R H) : Prop where
  clock : s.clock ≤ s'.clock
  minted : ∀ p ∈ s.minted, p ∈ s'.minted
  issues : ∀ i ∈ s.issues, i ∈ s'.issues
  issued : ∀ i ∈ s'.issues, i ∈ s.issues ∨ (i.nonce, request) ∉ s.minted
  spent : ∀ x ∈ s.spent, x ∈ s'.spent
  sessions : ∀ x ∈ s'.sessions, x ∈ s.sessions ∨ x.request ≠ request

theorem Leaves.refl (request : R) (s : Db B R H) : Leaves request s s :=
  ⟨le_refl _, fun _ h => h, fun _ h => h, fun _ h => .inl h, fun _ h => h, fun _ h => .inl h⟩

theorem Leaves.not_opened {request : R} (h : Leaves request s s') (hnone : ∀ x ∈ s.sessions, x.request ≠ request) :
    ∀ x ∈ s'.sessions, x.request ≠ request := by
  intro x hx
  rcases h.sessions x hx with hx | hx
  · exact hnone x hx
  · exact hx

theorem Leaves.not_issued {request : R} {nonce : Text} (h : Leaves request s s') (hminted : (nonce, request) ∈ s.minted)
    (hnone : nonce ∉ s.issues.map Issue.nonce) : nonce ∉ s'.issues.map Issue.nonce := by
  intro hmem
  obtain ⟨i, hi, rfl⟩ := List.mem_map.mp hmem
  rcases h.issued i hi with hi | hi
  · exact hnone (List.mem_map_of_mem hi)
  · exact hi hminted

/-- A request keeps what it knows. -/
theorem Knows.of_leaves {request : R} (h : Knows jwt tokenHash audience request s l) (hleaves : Leaves request s s') :
    Knows jwt tokenHash audience request s' l := by
  cases l with
  | idle r => exact ⟨h.1, hleaves.not_opened h.2⟩
  | minted r b nonce =>
    obtain ⟨rfl, hnone, hminted, hissue⟩ := h
    exact ⟨rfl, hleaves.not_opened hnone, hleaves.minted _ hminted, hleaves.not_issued hminted hissue⟩
  | issuing r b nonce now =>
    obtain ⟨rfl, hnone, hminted, hissue, hnow⟩ := h
    exact ⟨rfl, hleaves.not_opened hnone, hleaves.minted _ hminted, hleaves.not_issued hminted hissue,
      hnow.trans hleaves.clock⟩
  | answering r b nonce => exact IssuedTo.mono h hleaves.issues hleaves.clock
  | posted r b cookie token now =>
    obtain ⟨hr, hnone, hcookie⟩ := h
    exact ⟨hr, hleaves.not_opened hnone, fun nonce hn => (hcookie nonce hn).mono hleaves.issues hleaves.clock⟩
  | verified r b cookie token now =>
    obtain ⟨hr, hnone, nonce, claims, hcookie, hissued, haccepted⟩ := h
    exact ⟨hr, hleaves.not_opened hnone, nonce, claims, hcookie, hissued.mono hleaves.issues hleaves.clock, haccepted⟩
  | spending hash x =>
    obtain ⟨hr, hnone, hhash, hissued, haccepted⟩ := h
    exact ⟨hr, hleaves.not_opened hnone, hhash, hissued.mono hleaves.issues (le_refl _), haccepted⟩
  | spent x =>
    obtain ⟨hr, hnone, hspent⟩ := h
    exact ⟨hr, hleaves.not_opened hnone, hleaves.spent x hspent⟩
  | ended => trivial

/-! ### One step -/

section

variable [DecidableEq B]

theorem Kept.env (h : Kept jwt tokenHash audience s) (henv : Env s s') :
    Kept jwt tokenHash audience s' ∧ ∀ request, Leaves request s s' := by
  cases henv with
  | tick clock hclock =>
    refine ⟨{ h with issued := ?_, cookies := ?_, table := h.table, live := ?_, spent := ?_ }, fun request => ?_⟩
    · exact fun i hi => ⟨(h.issued i hi).1, (h.issued i hi).2.trans hclock⟩
    · exact fun b nonce hb => (h.cookies b nonce hb).mono (fun _ hi => hi) hclock
    · exact fun i hi hspent hlt => h.live i hi hspent (hclock.trans_lt hlt)
    · exact fun x hx => (h.spent x hx).mono fun _ hi => hi
    · exact { Leaves.refl request s with clock := hclock }
  | dropCookie b =>
    refine ⟨{ h with cookies := ?_, spent := ?_ }, fun request => ?_⟩
    · intro b' nonce hb'
      by_cases hb : b' = b
      · subst hb
        exact absurd hb' (by simp)
      · refine (h.cookies b' nonce ?_).mono (fun _ hi => hi) (le_refl _)
        dsimp only at hb'
        rwa [Function.update_of_ne hb] at hb'
    · exact fun x hx => (h.spent x hx).mono fun _ hi => hi
    · exact { Leaves.refl request s with }

end

/-- The nonces of two issues differ. -/
theorem Kept.issue_eq (h : Kept jwt tokenHash audience s) {i i' : Issue B} (hi : i ∈ s.issues) (hi' : i' ∈ s.issues)
    (hnonce : i.nonce = i'.nonce) : i = i' := List.inj_on_of_nodup_map h.issues hi hi' hnonce

theorem Kept.spent_issued (h : Kept jwt tokenHash audience s) {nonce : Text} (hspent : nonce ∈ s.spent.map SignIn.nonce) :
    nonce ∈ s.issues.map Issue.nonce := by
  obtain ⟨x, hx, rfl⟩ := List.mem_map.mp hspent
  obtain ⟨i, hi, heq, -⟩ := (h.spent x hx).issued
  exact List.mem_map.mpr ⟨i, hi, by rw [heq]⟩

/-- The token of a nonce spent says which nonce it is. -/
theorem Kept.eq_of_token (h : Kept jwt tokenHash audience s) (hpayload : jwt.SamePayload) {x y : SignIn B R}
    (hx : x ∈ s.spent) (hy : y ∈ s.spent) (htoken : x.token = y.token) : x = y := by
  obtain ⟨claims, haccepted⟩ := (h.spent x hx).accepted
  obtain ⟨claims', haccepted'⟩ := (h.spent y hy).accepted
  obtain ⟨key, hdecode⟩ := haccepted.signed
  obtain ⟨key', hdecode'⟩ := haccepted'.signed
  rw [htoken] at hdecode
  obtain rfl := hpayload _ _ _ _ _ hdecode hdecode'
  exact List.inj_on_of_nodup_map h.once hx hy (Option.some.inj (haccepted.carries.symm.trans haccepted'.carries))

theorem kept_start (clock : ℤ) : Atomic.Holds (Kept jwt tokenHash audience) (fun request s l => Knows jwt tokenHash audience request s l)
    (start clock : Atomic.World (Db B R H) (Pc B R H) R) where
  shared :=
    { minted := List.nodup_nil
      issues := List.nodup_nil
      issued := fun i hi => absurd hi List.not_mem_nil
      cookies := fun b nonce hb => absurd hb (by simp [start])
      table := fun hash expiresAt hrow => absurd hrow (by simp [start])
      live := fun i hi => absurd hi List.not_mem_nil
      spent := fun x hx => absurd hx List.not_mem_nil
      once := List.nodup_nil
      sessions := fun x hx => absurd hx List.not_mem_nil
      opened := List.nodup_nil }
  client request := ⟨rfl, fun x hx => absurd hx List.not_mem_nil⟩

section

variable [DecidableEq H]

/-- STEP: a nonce is issued. -/
theorem Kept.insert (h : Kept jwt tokenHash audience s) {r : R} {b : B} {nonce : Text} {now : ℤ} {hash : H}
    (hhash : tokenHash nonce = some hash) (hnew : s.table hash = none) (hminted : (nonce, r) ∈ s.minted)
    (hissue : nonce ∉ s.issues.map Issue.nonce) (hnow : now ≤ s.clock) :
    Kept jwt tokenHash audience { s with
      table := Function.update (fun k => (s.table k).filter (now < ·)) hash (some (now + NONCE_TTL))
      issues := ⟨nonce, b, now⟩ :: s.issues } where
  minted := h.minted
  issues := by
    rw [List.map_cons]
    exact List.nodup_cons.mpr ⟨hissue, h.issues⟩
  issued i hi := by
    rcases List.mem_cons.mp hi with rfl | hi
    · exact ⟨List.mem_map.mpr ⟨_, hminted, rfl⟩, hnow⟩
    · exact h.issued i hi
  cookies b' nonce' hb' := (h.cookies b' nonce' hb').mono (fun _ hi => List.mem_cons_of_mem _ hi) (le_refl _)
  table k expiresAt hk := by
    dsimp only at hk ⊢
    by_cases hkey : k = hash
    · subst hkey
      rw [Function.update_self] at hk
      refine ⟨_, List.mem_cons_self, hhash, (Option.some.inj hk).symm, fun hspent => ?_⟩
      exact hissue (h.spent_issued hspent)
    · rw [Function.update_of_ne hkey, Option.filter_eq_some_iff] at hk
      obtain ⟨i, hi, hrest⟩ := h.table k expiresAt hk.1
      exact ⟨i, List.mem_cons_of_mem _ hi, hrest⟩
  live i hi hspent hlt := by
    dsimp only at hspent hlt ⊢
    rcases List.mem_cons.mp hi with rfl | hi
    · exact ⟨hash, hhash, Function.update_self _ _ _⟩
    · -- a live one has not expired by this statement's `now()`
      obtain ⟨k, hk, htable⟩ := h.live i hi hspent hlt
      have hkey : k ≠ hash := by
        rintro rfl
        exact absurd (hnew.symm.trans htable) (by simp)
      refine ⟨k, hk, ?_⟩
      rw [Function.update_of_ne hkey, htable, Option.filter_some, if_pos]
      exact decide_eq_true (hnow.trans_lt hlt)
  spent x hx := (h.spent x hx).mono fun _ hi => List.mem_cons_of_mem _ hi
  once := h.once
  sessions := h.sessions
  opened := h.opened

/-- STEP: a nonce is spent. -/
theorem Kept.spend (h : Kept jwt tokenHash audience s) (hcollision : NoCollision tokenHash) {hash : H} {x : SignIn B R}
    {expiresAt : ℤ} (hrow : s.table hash = some expiresAt) (hlive : x.at_ < expiresAt)
    (hhash : tokenHash x.nonce = some hash) (hissued : IssuedTo s x.browser x.nonce x.at_)
    (haccepted : ∃ claims, Accepted jwt audience x.token x.nonce x.now claims) :
    Kept jwt tokenHash audience { s with table := Function.update s.table hash none, spent := x :: s.spent } := by
  obtain ⟨i, hi, hihash, rfl, hunspent⟩ := h.table hash expiresAt hrow
  have hnonce : i.nonce = x.nonce := hcollision _ _ _ hihash hhash
  obtain ⟨i', hi', heq, hle⟩ := hissued
  obtain rfl : i = i' := h.issue_eq hi hi' (by rw [hnonce, heq])
  refine { h with table := ?_, live := ?_, spent := ?_, once := ?_, sessions := ?_ }
  · intro k expiresAt hk
    dsimp only at hk
    by_cases hkey : k = hash
    · subst hkey
      exact absurd hk (by simp)
    · rw [Function.update_of_ne hkey] at hk
      obtain ⟨i', hi', hi'hash, he, hspent⟩ := h.table k expiresAt hk
      refine ⟨i', hi', hi'hash, he, fun hmem => ?_⟩
      rcases List.mem_cons.mp hmem with hmem | hmem
      · rw [hmem, hhash] at hi'hash
        exact hkey (Option.some.inj hi'hash).symm
      · exact hspent hmem
  · intro i' hi' hspent hlt
    dsimp only at hspent hlt ⊢
    rw [List.map_cons, List.mem_cons, not_or] at hspent
    obtain ⟨k, hk, htable⟩ := h.live i' hi' hspent.2 hlt
    have hkey : k ≠ hash := by
      rintro rfl
      exact hspent.1 (hcollision _ _ _ hk hhash)
    exact ⟨k, hk, by rw [Function.update_of_ne hkey, htable]⟩
  · intro y hy
    rcases List.mem_cons.mp hy with rfl | hy
    · exact ⟨haccepted, i, hi, heq, hle, hlive⟩
    · exact (h.spent y hy).mono fun _ hi => hi
  · rw [List.map_cons]
    exact List.nodup_cons.mpr ⟨hnonce ▸ hunspent, h.once⟩
  · exact fun y hy => List.mem_cons_of_mem _ (h.sessions y hy)

variable [DecidableEq B]

/-- STEP: what a request does keeps what is shared, and what it knows. -/
theorem Kept.move (hcollision : NoCollision tokenHash) {request : R} (h : Kept jwt tokenHash audience s)
    (hknows : Knows jwt tokenHash audience request s l) (hmove : Move jwt tokenHash audience s l s' l') :
    Kept jwt tokenHash audience s' ∧ Knows jwt tokenHash audience request s' l' := by
  cases hmove with
  | giveUp => exact ⟨h, trivial⟩
  | mint r b nonce hnew =>
    obtain ⟨rfl, hnone⟩ := hknows
    refine ⟨{ h with minted := ?_, issued := ?_, cookies := h.cookies, spent := ?_ }, rfl, hnone, List.mem_cons_self, ?_⟩
    · rw [List.map_cons]
      exact List.nodup_cons.mpr ⟨hnew, h.minted⟩
    · exact fun i hi => ⟨List.mem_cons_of_mem _ (h.issued i hi).1, (h.issued i hi).2⟩
    · exact fun x hx => (h.spent x hx).mono fun _ hi => hi
    · intro hmem
      obtain ⟨i, hi, rfl⟩ := List.mem_map.mp hmem
      exact hnew (h.issued i hi).1
  | begin_ r b nonce =>
    obtain ⟨hr, hnone, hminted, hissue⟩ := hknows
    exact ⟨h, hr, hnone, hminted, hissue, le_refl _⟩
  | insert r b nonce now hash hhash hnew =>
    obtain ⟨rfl, hnone, hminted, hissue, hnow⟩ := hknows
    exact ⟨h.insert hhash hnew hminted hissue hnow, _, List.mem_cons_self, rfl, hnow⟩
  | setCookie r b nonce =>
    refine ⟨{ h with cookies := ?_, spent := ?_ }, trivial⟩
    · intro b' nonce' hb'
      dsimp only at hb'
      by_cases hb : b' = b
      · subst hb
        rw [Function.update_self] at hb'
        obtain rfl := Option.some.inj hb'
        exact IssuedTo.mono hknows (fun _ hi => hi) (le_refl _)
      · rw [Function.update_of_ne hb] at hb'
        exact (h.cookies b' nonce' hb').mono (fun _ hi => hi) (le_refl _)
    · exact fun x hx => (h.spent x hx).mono fun _ hi => hi
  | post r b token now => exact ⟨h, hknows.1, hknows.2, fun nonce hn => h.cookies b nonce hn⟩
  | verify r b cookie token now jwks profile hverify =>
    obtain ⟨hr, hnone, hcookie⟩ := hknows
    obtain ⟨nonce, claims, hn, haccepted⟩ := accepted_of_verify hverify
    exact ⟨h, hr, hnone, nonce, claims, hn, hcookie nonce hn, haccepted⟩
  | hash r b nonce token now hash hhash =>
    obtain ⟨hr, hnone, nonce', claims, hn, hissued, haccepted⟩ := hknows
    obtain rfl := Option.some.inj hn
    exact ⟨h, hr, hnone, hhash, hissued, claims, haccepted⟩
  | spend hash x expiresAt hrow hlive =>
    obtain ⟨hr, hnone, hhash, hissued, haccepted⟩ := hknows
    exact ⟨h.spend hcollision hrow hlive hhash hissued haccepted, hr, hnone, List.mem_cons_self⟩
  | signIn x =>
    obtain ⟨hr, hnone, hspent⟩ := hknows
    refine ⟨{ h with spent := ?_, sessions := ?_, opened := ?_ }, trivial⟩
    · exact fun y hy => (h.spent y hy).mono fun _ hi => hi
    · intro y hy
      rcases List.mem_cons.mp hy with rfl | hy
      · exact hspent
      · exact h.sessions y hy
    · exact List.nodup_cons.mpr ⟨fun hmem => hnone x hmem hr, h.opened⟩

/-- STEP: what a request does leaves the others what they know. -/
theorem leaves_of_move {request other : R} (hne : other ≠ request) (h : Kept jwt tokenHash audience s)
    (hknows : Knows jwt tokenHash audience request s l) (hmove : Move jwt tokenHash audience s l s' l') :
    Leaves other s s' := by
  cases hmove with
  | giveUp => exact Leaves.refl other s
  | mint r b nonce hnew => exact { Leaves.refl other s with minted := fun p hp => List.mem_cons_of_mem _ hp }
  | begin_ r b nonce => exact Leaves.refl other s
  | insert r b nonce now hash hhash hnew =>
    obtain ⟨rfl, -, hminted, -⟩ := hknows
    refine { Leaves.refl other s with issues := ?_, issued := ?_ }
    · exact fun i hi => List.mem_cons_of_mem _ hi
    · intro i hi
      rcases List.mem_cons.mp hi with rfl | hi
      · -- one nonce, one request
        refine .inr fun hother => hne ?_
        exact (Prod.mk.inj (List.inj_on_of_nodup_map h.minted hother hminted rfl)).2
      · exact .inl hi
  | setCookie r b nonce => exact { Leaves.refl other s with }
  | post r b token now => exact Leaves.refl other s
  | verify r b cookie token now jwks profile hverify => exact Leaves.refl other s
  | hash r b nonce token now hash hhash => exact Leaves.refl other s
  | spend hash x expiresAt hrow hlive =>
    exact { Leaves.refl other s with spent := fun y hy => List.mem_cons_of_mem _ hy }
  | signIn x =>
    obtain ⟨rfl, -, -⟩ := hknows
    refine { Leaves.refl other s with sessions := fun y hy => ?_ }
    rcases List.mem_cons.mp hy with rfl | hy
    · exact .inr hne.symm
    · exact .inl hy

/-! ### Any interleaving -/

open Atomic

theorem kept_preserved (hcollision : NoCollision tokenHash) :
    Preserved (system jwt tokenHash audience) (Kept jwt tokenHash audience)
      (fun (request : R) (s : Db B R H) l => Knows jwt tokenHash audience request s l) where
  env _ _ h henv := (h.env henv).1
  env_client request _ _ _ h hknows henv := hknows.of_leaves ((h.env henv).2 request)
  move _ _ _ _ _ h hknows hmove := h.move hcollision hknows hmove
  move_other _ _ _ _ _ _ _ hne h hknows hother hmove :=
    hother.of_leaves (leaves_of_move hne h hknows hmove)

variable [DecidableEq R] {w : World (Db B R H) (Pc B R H) R} {clock : ℤ}

/-- CORRECT: a token opens one session at most, in a request whose cookie held the nonce that the token carries, issued to
    its browser less than `NONCE_TTL` earlier and never spent before, for a token of this server; and a nonce issued, not
    spent and in time can be spent. -/
theorem signs_in_once (hpayload : jwt.SamePayload) (hcollision : NoCollision tokenHash)
    (hrun : Steps (system jwt tokenHash audience) (start clock) w) :
    (w.shared.sessions.map SignIn.token).Nodup ∧
    (∀ x ∈ w.shared.sessions, x ∈ w.shared.spent ∧ Spent jwt audience w.shared x) ∧
    (w.shared.spent.map SignIn.nonce).Nodup ∧
    ∀ i ∈ w.shared.issues, i.nonce ∉ w.shared.spent.map SignIn.nonce → w.shared.clock < i.at_ + NONCE_TTL →
      ∀ r b token now at_, at_ ≤ w.shared.clock → ∃ hash s', tokenHash i.nonce = some hash ∧
        Move jwt tokenHash audience w.shared (.spending hash ⟨r, b, i.nonce, token, now, at_⟩) s'
          (.spent ⟨r, b, i.nonce, token, now, at_⟩) := by
  have hkept : Kept jwt tokenHash audience w.shared := ((kept_preserved hcollision).steps (kept_start clock) hrun).shared
  refine ⟨?_, fun x hx => ⟨hkept.sessions x hx, hkept.spent x (hkept.sessions x hx)⟩, hkept.once, ?_⟩
  · refine List.Nodup.map_on (fun x hx y hy htoken => ?_) hkept.opened
    exact hkept.eq_of_token hpayload (hkept.sessions x hx) (hkept.sessions y hy) htoken
  · intro i hi hunspent hlt r b token now at_ hat
    obtain ⟨hash, hhash, hrow⟩ := hkept.live i hi hunspent hlt
    exact ⟨hash, _, hhash, .spend _ hash _ _ hrow (hat.trans_lt hlt)⟩

/-! ### One sign-in -/

def claimsOne : IdTokenClaims :=
  ⟨"accounts.google.com".toList, "aud".toList, 100, "sub".toList, "a@b".toList, true, some "n".toList, none⟩

/-- The crate, on one token. -/
def jwtOne : Jwt where
  Key := Unit
  decodeHeader _ := some ⟨.RS256, some "k".toList⟩
  decode token _ := if token = "t".toList then .ok claimsOne else .error .other

theorem jwtOne_samePayload : jwtOne.SamePayload := by
  intro token key key' claims claims' h h'
  exact Except.ok.inj (h.symm.trans h')

theorem verify_one : verify jwtOne (fun _ => .ok (some ())) "aud".toList "t".toList (some "n".toList) 130 =
    .ok ⟨"sub".toList, "a@b".toList, none⟩ := by
  have hkey : keyId jwtOne "t".toList = .ok "k".toList := rfl
  have hdecode : jwtOne.decode "t".toList () = .ok claimsOne := rfl
  have hclaims : validateClaims claimsOne "aud".toList (some "n".toList) 130 =
      .ok ⟨"sub".toList, "a@b".toList, none⟩ := by
    rw [validateClaims, if_neg (by decide +kernel), if_neg (by decide +kernel), if_neg (by decide +kernel),
      if_neg (by decide +kernel), if_neg (by decide +kernel)]
    rfl
  simp only [verify, hkey, hdecode, hclaims]

/-- The nonce of that token, issued. -/
def issuedOne : Db Unit Bool Text :=
  { clock := 0
    table := Function.update (fun _ => none) "n".toList (some (0 + NONCE_TTL))
    cookies := fun _ => none
    minted := [("n".toList, false)]
    issues := [⟨"n".toList, (), 0⟩]
    spent := []
    sessions := [] }

def signInOne : SignIn Unit Bool := ⟨true, (), "n".toList, "t".toList, 130, 0⟩

theorem issue_one : Steps (system jwtOne some "aud".toList) (start 0 : World (Db Unit Bool Text) (Pc Unit Bool Text) Bool)
    ⟨issuedOne, two (.answering false () "n".toList) (.idle true)⟩ := by
  have hstart : (start 0 : World (Db Unit Bool Text) (Pc Unit Bool Text) Bool) =
      ⟨⟨0, fun _ => none, fun _ => none, [], [], [], []⟩, two (.idle false) (.idle true)⟩ := by
    rw [start, World.mk.injEq]
    exact ⟨rfl, funext fun r => by cases r <;> rfl⟩
  have hmint : Move jwtOne (H := Text) some "aud".toList _ (.idle false) _ (.minted false () "n".toList) :=
    .mint ⟨0, fun _ => none, fun _ => none, [], [], [], []⟩ false () "n".toList (by simp)
  have hinsert : Move jwtOne some "aud".toList ⟨0, fun _ => none, fun _ => none, [("n".toList, false)], [], [], []⟩
      (.issuing false () "n".toList 0) issuedOne (.answering false () "n".toList) :=
    .insert _ false () "n".toList 0 "n".toList rfl rfl
  rw [hstart]
  exact ((Relation.ReflTransGen.single (Step.first _ hmint)).tail (Step.first _ (Move.begin_ _ _ _ _))).tail
    (Step.first _ hinsert)

/-- Spent by the browser it was issued to: one session. -/
theorem signs_in_once_one : ∃ w : World (Db Unit Bool Text) (Pc Unit Bool Text) Bool,
    Steps (system jwtOne some "aud".toList) (start 0) w ∧ w.shared.sessions = [signInOne] ∧
    Spent jwtOne "aud".toList w.shared signInOne := by
  have hcookie : Move jwtOne some "aud".toList issuedOne (.answering false () "n".toList)
      { issuedOne with cookies := Function.update issuedOne.cookies () (some "n".toList) } .ended :=
    .setCookie issuedOne false () "n".toList
  have hpost : Move jwtOne some "aud".toList
      { issuedOne with cookies := Function.update issuedOne.cookies () (some "n".toList) } (.idle true)
      { issuedOne with cookies := Function.update issuedOne.cookies () (some "n".toList) }
      (.posted true () (some "n".toList) "t".toList 130) := .post _ true () "t".toList 130
  have hspend : Move jwtOne some "aud".toList
      { issuedOne with cookies := Function.update issuedOne.cookies () (some "n".toList) } (.spending "n".toList signInOne)
      _ (.spent signInOne) := .spend _ "n".toList signInOne (0 + NONCE_TTL) rfl (by decide)
  have hrun := ((((((issue_one.tail (Step.first _ hcookie)).tail (Step.second _ hpost)).tail
    (Step.second _ (Move.verify _ _ _ _ _ _ _ _ verify_one))).tail
    (Step.second _ (Move.hash _ _ _ _ _ _ "n".toList rfl))).tail (Step.second _ hspend)).tail
    (Step.second _ (Move.signIn _ _)))
  refine ⟨_, hrun, rfl, ?_⟩
  exact ((signs_in_once jwtOne_samePayload (fun _ _ _ h h' => Option.some.inj (h.trans h'.symm)) hrun).2.1 _
    (List.mem_singleton_self _)).2

end

end Home.Auth.GoogleIdToken
