import Mathlib.Logic.Relation
import ManageOurHome.Auth.Address

/-! @src apps/api/src/auth/mod.rs, apps/api/src/auth/oauth_google.rs | layer:proof | family:authentication

    The password of a stranger opens nothing once the holder has entered, in every history in which the address is not
    verified while that password is on file: the holder's first sign-in does not find it so, and no link is followed
    after it. A sign-in with Google binds the identity and leaves the password, and a link followed later verifies
    whatever password is there.

        stranger: register ─ holder: Google, resend, verify_email ─ stranger: login, a session -/

namespace Home.Auth.Address

open Relation Verification PasswordChange

variable {H T S G : Type} {crypto : Crypto H} {submits : Text → Party} {s s' : State H T S G}

/-- The password on file is one the stranger submitted. -/
def Theirs (crypto : Crypto H) (submits : Text → Party) (s : State H T S G) : Prop :=
  ∃ user hash password, s.user = some user ∧ user.passwordHash = some hash ∧ crypto.hashPassword password hash ∧
    submits password = .stranger

def Verified (s : State H T S G) : Prop := ∃ user, s.user = some user ∧ user.emailVerified = true

/-- What holds all along: once the holder has entered, the stranger's password is on no verified address; a session
    of the stranger's is one of their password, on a verified address. -/
structure Safe (crypto : Crypto H) (submits : Text → Party) (s : State H T S G) : Prop where
  entered : s.entered = true → Theirs crypto submits s → ¬Verified s
  session : ∀ x ∈ s.sessions, x.party = .stranger → Theirs crypto submits s ∧ Verified s
  hashed : ∀ user hash, s.user = some user → user.passwordHash = some hash → ∃ password, crypto.hashPassword password hash

theorem safe_empty (clock : ℤ) : Safe crypto submits (State.empty clock : State H T S G) where
  entered h := absurd h (by simp [State.empty])
  session x hx := absurd hx List.not_mem_nil
  hashed user hash h := absurd h (by simp [State.empty])

/-! ### What the two depend on -/

/-- The account and the sessions kept, or fewer of these. -/
theorem Safe.fewer (h : Safe crypto submits s) (huser : s'.user = s.user) (hentered : s'.entered = s.entered)
    (hsessions : ∀ x ∈ s'.sessions, x ∈ s.sessions) : Safe crypto submits s' := by
  have htheirs : Theirs crypto submits s' ↔ Theirs crypto submits s := by rw [Theirs, Theirs, huser]
  have hverified : Verified s' ↔ Verified s := by rw [Verified, Verified, huser]
  refine ⟨?_, ?_, ?_⟩
  · rw [hentered, htheirs, hverified]
    exact h.entered
  · intro x hx hparty
    rw [htheirs, hverified]
    exact h.session x (hsessions x hx) hparty
  · rw [huser]
    exact h.hashed

/-- A password of the holder's on file is not one of the stranger's. -/
theorem not_theirs (hlawful : crypto.Lawful) {user : User H G} {hash : H} {password : Text}
    (huser : s.user = some user) (hhash : user.passwordHash = some hash) (hpassword : crypto.hashPassword password hash)
    (hparty : submits password = .holder) : ¬Theirs crypto submits s := by
  rintro ⟨user', hash', other, huser', hhash', hother, hstranger⟩
  obtain rfl := Option.some.inj (huser.symm.trans huser')
  obtain rfl := Option.some.inj (hhash.symm.trans hhash')
  obtain rfl := hlawful.hashed_once hpassword hother
  rw [hparty] at hstranger
  exact absurd hstranger (by simp)

/-- No session of the stranger's without their password on file. -/
theorem Safe.no_session (h : Safe crypto submits s) (hnot : ¬Theirs crypto submits s) {x : Session S}
    (hx : x ∈ s.sessions) : x.party = .holder := by
  cases hparty : x.party with
  | holder => rfl
  | stranger => exact absurd (h.session x hx hparty).1 hnot

/-- Nor once the holder has entered. -/
theorem Safe.no_session_entered (h : Safe crypto submits s) (hentered : s.entered = true) {x : Session S}
    (hx : x ∈ s.sessions) : x.party = .holder := by
  cases hparty : x.party with
  | holder => rfl
  | stranger =>
    obtain ⟨htheirs, hverified⟩ := h.session x hx hparty
    exact absurd hverified (h.entered hentered htheirs)

/-- Whatever else changes of the account. -/
theorem theirs_map (f : User H G → User H G) (hf : ∀ user, (f user).passwordHash = user.passwordHash)
    (huser : s'.user = s.user.map f) : Theirs crypto submits s' ↔ Theirs crypto submits s := by
  constructor
  · rintro ⟨user', hash, password, huser', hhash, hpassword, hparty⟩
    rw [huser] at huser'
    obtain ⟨user, hsome, rfl⟩ := Option.map_eq_some_iff.mp huser'
    exact ⟨user, hash, password, hsome, (hf user).symm.trans hhash, hpassword, hparty⟩
  · rintro ⟨user, hash, password, hsome, hhash, hpassword, hparty⟩
    refine ⟨f user, hash, password, ?_, (hf user).trans hhash, hpassword, hparty⟩
    rw [huser, hsome]
    rfl

theorem Safe.hashed_map (h : Safe crypto submits s) (f : User H G → User H G)
    (hf : ∀ user, (f user).passwordHash = user.passwordHash) (huser : s'.user = s.user.map f) :
    ∀ user hash, s'.user = some user → user.passwordHash = some hash → ∃ password, crypto.hashPassword password hash := by
  intro user' hash huser' hhash
  rw [huser] at huser'
  obtain ⟨user, hsome, rfl⟩ := Option.map_eq_some_iff.mp huser'
  exact h.hashed user hash hsome ((hf user).symm.trans hhash)

/-! ### The requests, one by one -/

theorem safe_insertLink {token : T} {issued followed : Bool} (h : Safe crypto submits s) :
    Safe crypto submits (s.insertLink token issued followed) :=
  h.fewer rfl rfl fun _ => id

section

variable [DecidableEq T]

theorem safe_issueVerification {party : Option Party} {token : T} (h : Safe crypto submits s) :
    Safe crypto submits (issueVerification s party token) := by
  rw [issueVerification]
  split
  · exact h
  · exact safe_insertLink (h.fewer rfl rfl fun _ => id)

theorem safe_register {password : Text} {hash : H} {token : T} (h : Safe crypto submits s)
    (hhash : crypto.hashPassword password hash) (hok : register crypto s password hash token = .ok s') :
    Safe crypto submits s' := by
  rw [register] at hok
  split at hok
  · exact absurd hok (by simp)
  · split at hok
    · rename_i hnone
      cases hok
      refine safe_insertLink ⟨fun _ _ => ?_, ?_, ?_⟩
      · rintro ⟨user, huser, hverified⟩
        cases huser
        exact absurd hverified (by simp)
      · intro x hx hparty
        obtain ⟨user, _, _, huser, -⟩ := (h.session x hx hparty).1
        exact absurd (hnone.symm.trans huser) (by simp)
      · rintro user hash' ⟨⟩ ⟨⟩
        exact ⟨password, hhash⟩
    · cases hok
      split
      · exact h
      · exact safe_issueVerification h

theorem safe_resendVerification {party : Party} {token : T} (h : Safe crypto submits s) :
    Safe crypto submits (resendVerification s party token) := by
  rw [resendVerification]
  split
  · split
    · exact h
    · exact safe_issueVerification h
  · exact h

/-- A link that may still be followed. -/
def live (s : State H T S G) (token : T) : Bool :=
  match s.verifications.find? (fun r => r.token = token) with
  | some r => !r.consumed && decide (s.clock ≤ r.expiresAt)
  | none => false

/-- A link followed verifies the address, when it is live. -/
theorem verifyEmail_eq_ok {token : T} : verifyEmail s token = .ok s' ↔ live s token = true ∧
    { s with verifications := consume [token] s.verifications
             user := s.user.map fun user => { user with emailVerified := true } } = s' := by
  rw [verifyEmail, live]
  cases hfind : s.verifications.find? (fun r => r.token = token) with
  | none => simp
  | some r =>
    cases hconsumed : r.consumed with
    | true => simp [hconsumed]
    | false =>
      by_cases hexpired : r.expiresAt < s.clock
      · simp [hconsumed, hexpired, not_le.mpr hexpired]
      · simp [hconsumed, hexpired, not_lt.mp hexpired]

theorem safe_verifyEmail {token : T} (h : Safe crypto submits s) (hcareful : s.entered = true → ¬Theirs crypto submits s)
    (hok : verifyEmail s token = .ok s') : Safe crypto submits s' := by
  obtain ⟨-, rfl⟩ := verifyEmail_eq_ok.mp hok
  have htheirs : Theirs crypto submits { s with
      verifications := consume [token] s.verifications
      user := s.user.map fun user => { user with emailVerified := true } } ↔ Theirs crypto submits s :=
    theirs_map (fun user => { user with emailVerified := true }) (fun _ => rfl) rfl
  refine ⟨fun hentered hmine => absurd (htheirs.mp hmine) (hcareful hentered), ?_, ?_⟩
  · intro x hx hparty
    obtain ⟨hmine, user, huser, -⟩ := h.session x hx hparty
    refine ⟨htheirs.mpr hmine, { user with emailVerified := true }, ?_, rfl⟩
    simp [huser]
  · exact h.hashed_map (fun user => { user with emailVerified := true }) (fun _ => rfl) rfl

theorem safe_resetPassword (hlawful : crypto.Lawful) {party : Party} {token : T} {newPassword : Text} {hash : H}
    (hhash : crypto.hashPassword newPassword hash)
    (hparty : submits newPassword = .holder ∨ token ∉ s.resets.map ResetToken.token)
    (hok : resetPassword crypto s party token newPassword hash = .ok s') : Safe crypto submits s' := by
  rw [resetPassword] at hok
  split at hok
  · exact absurd hok (by simp)
  · rename_i r hfind
    have hthere : token ∈ s.resets.map ResetToken.token := by
      have htoken : r.token = token := by simpa using List.find?_some hfind
      exact List.mem_map.mpr ⟨r, List.mem_of_find?_eq_some hfind, htoken⟩
    have hholder := hparty.resolve_right fun hnot => hnot hthere
    split at hok
    · exact absurd hok (by simp)
    · split at hok
      · exact absurd hok (by simp)
      · cases hok
        refine ⟨fun _ htheirs => ?_, fun x hx => absurd hx List.not_mem_nil, ?_⟩
        · obtain ⟨user, hash', other, huser, hhash', -⟩ := id htheirs
          obtain ⟨old, hold, rfl⟩ := Option.map_eq_some_iff.mp huser
          exact absurd htheirs (not_theirs hlawful huser rfl hhash hholder)
        · intro user hash' huser hhash'
          obtain ⟨old, hold, rfl⟩ := Option.map_eq_some_iff.mp huser
          obtain rfl := Option.some.inj hhash'
          exact ⟨newPassword, hhash⟩

end

/-- A login opens a session with the password on file, verified, and otherwise says nothing. -/
theorem login_eq_ok {password : Text} {session : S} : login crypto submits s password session = .ok s' ↔
    ∃ user hash, s.user = some user ∧ user.passwordHash = some hash ∧ crypto.verifyPassword password hash = true ∧
      user.emailVerified = true ∧ { s with sessions := ⟨session, submits password⟩ :: s.sessions } = s' := by
  rw [login]
  cases huser : s.user with
  | none => simp
  | some user =>
    cases hhash : user.passwordHash with
    | none => simp [hhash]
    | some hash =>
      cases hverify : crypto.verifyPassword password hash with
      | false => simp [hhash, hverify]
      | true =>
        cases hemail : user.emailVerified with
        | false => simp [hhash, hemail]
        | true => simp [hhash, hverify, hemail]

theorem login_opens {password : Text} {session : S} : (∃ s', login crypto submits s password session = .ok s') ↔
    ∃ user hash, s.user = some user ∧ user.passwordHash = some hash ∧ crypto.verifyPassword password hash = true ∧
      user.emailVerified = true := by
  constructor
  · rintro ⟨s', hok⟩
    obtain ⟨user, hash, huser, hhash, hverify, hemail, -⟩ := login_eq_ok.mp hok
    exact ⟨user, hash, huser, hhash, hverify, hemail⟩
  · rintro ⟨user, hash, huser, hhash, hverify, hemail⟩
    exact ⟨_, login_eq_ok.mpr ⟨user, hash, huser, hhash, hverify, hemail, rfl⟩⟩

theorem safe_login (hlawful : crypto.Lawful) {password : Text} {session : S} (h : Safe crypto submits s)
    (hok : login crypto submits s password session = .ok s') : Safe crypto submits s' := by
  obtain ⟨user, hash, huser, hhash, hverify, hemail, rfl⟩ := login_eq_ok.mp hok
  refine ⟨h.entered, ?_, h.hashed⟩
  intro x hx hparty
  rcases List.mem_cons.mp hx with rfl | hx
  · obtain ⟨hashed, hhashed⟩ := h.hashed user hash huser hhash
    obtain rfl := hlawful.sound hashed password hash hhashed hverify
    exact ⟨⟨user, hash, password, huser, hhash, hhashed, hparty⟩, user, huser, hemail⟩
  · exact h.session x hx hparty

section

variable [DecidableEq S]

theorem authUser_eq_ok {session : S} {x : Session S} {user : User H G} :
    authUser s session = .ok (x, user) ↔
      s.sessions.find? (fun x => x.id = session) = some x ∧ s.user = some user ∧ user.full = true := by
  rw [authUser]
  cases hfind : s.sessions.find? (fun x => x.id = session) with
  | none => simp
  | some y =>
    cases huser : s.user with
    | none => simp
    | some user' =>
      cases hfull : user'.full with
      | false =>
        simp only [hfull, Bool.false_eq_true, if_false, reduceCtorEq, Option.some.injEq, false_iff]
        rintro ⟨-, rfl, htrue⟩
        rw [hfull] at htrue
        exact absurd htrue (by simp)
      | true =>
        simp only [hfull, if_true, Except.ok.injEq, Prod.mk.injEq, Option.some.injEq]
        constructor
        · rintro ⟨rfl, rfl⟩
          exact ⟨rfl, rfl, hfull⟩
        · rintro ⟨rfl, rfl, -⟩
          exact ⟨rfl, rfl⟩

/-- The session a request comes with, and who it is of. -/
theorem party_of_authUser {session : S} {x : Session S} {user : User H G} {party : Party}
    (hown : ∀ x ∈ s.sessions, x.id = session → x.party = party) (hauth : authUser s session = .ok (x, user)) :
    x ∈ s.sessions ∧ x.party = party := by
  obtain ⟨hfind, -, -⟩ := authUser_eq_ok.mp hauth
  have hx := List.mem_of_find?_eq_some hfind
  exact ⟨hx, hown x hx (by simpa using List.find?_some hfind)⟩

theorem safe_setPassword (hlawful : crypto.Lawful) {session : S} {newPassword : Text} {hash : H} {token : T}
    (h : Safe crypto submits s) (hhash : crypto.hashPassword newPassword hash)
    (hown : ∀ x ∈ s.sessions, x.id = session → x.party = submits newPassword)
    (hok : setPassword crypto s session newPassword hash token = .ok s') : Safe crypto submits s' := by
  rw [setPassword] at hok
  split at hok
  · exact absurd hok (by simp)
  · rename_i x user hauth
    obtain ⟨-, huser, -⟩ := authUser_eq_ok.mp hauth
    split at hok
    · exact absurd hok (by simp)
    · rename_i hnone
      split at hok
      · exact absurd hok (by simp)
      · cases hok
        -- nothing on file: no session of the stranger's
        have hnot : ¬Theirs crypto submits s := by
          rintro ⟨user', hash', _, huser', hhash', -⟩
          obtain rfl := Option.some.inj (huser.symm.trans huser')
          exact hnone (by simp [hhash'])
        obtain ⟨hx, hparty⟩ := party_of_authUser hown hauth
        have hholder : submits newPassword = .holder := hparty.symm.trans (h.no_session hnot hx)
        refine safe_insertLink ⟨fun _ htheirs => ?_, fun y hy hy' => ?_, ?_⟩
        · exact absurd htheirs (not_theirs hlawful rfl rfl hhash hholder)
        · rw [h.no_session hnot hy] at hy'
          exact absurd hy' (by simp)
        · rintro user' hash' ⟨⟩ ⟨⟩
          exact ⟨newPassword, hhash⟩

theorem safe_changePassword (hlawful : crypto.Lawful) {session : S} {currentPassword newPassword : Text} {hash : H}
    (h : Safe crypto submits s) (hhash : crypto.hashPassword newPassword hash)
    (hsame : submits currentPassword = submits newPassword)
    (hown : ∀ x ∈ s.sessions, x.id = session → x.party = submits newPassword)
    (hok : changePassword crypto s session currentPassword newPassword hash = .ok s') : Safe crypto submits s' := by
  rw [changePassword] at hok
  split at hok
  · exact absurd hok (by simp)
  · rename_i x user hauth
    obtain ⟨-, huser, -⟩ := authUser_eq_ok.mp hauth
    obtain ⟨hx, hparty⟩ := party_of_authUser hown hauth
    split at hok
    · exact absurd hok (by simp)
    · rename_i current hcurrent
      split at hok
      · exact absurd hok (by simp)
      · rename_i hverify
        split at hok
        · exact absurd hok (by simp)
        · cases hok
          have hashed : ∀ user' hash', some { user with passwordHash := some hash } = some user' →
              user'.passwordHash = some hash' → ∃ password, crypto.hashPassword password hash' := by
            rintro user' hash' ⟨⟩ ⟨⟩
            exact ⟨newPassword, hhash⟩
          cases hsubmits : submits newPassword with
          | stranger =>
            -- in their session, on a verified address, and before the holder has entered
            obtain ⟨-, hverified⟩ := h.session x hx (hparty.trans hsubmits)
            have hnew : Verified { s with
                user := some { user with passwordHash := some hash }
                sessions := s.sessions.filter fun x => x.id = session } := by
              obtain ⟨user', huser', hemail⟩ := hverified
              obtain rfl := Option.some.inj (huser.symm.trans huser')
              exact ⟨_, rfl, hemail⟩
            refine ⟨fun hentered => ?_, fun y _ _ => ⟨⟨_, hash, newPassword, rfl, rfl, hhash, hsubmits⟩, hnew⟩, hashed⟩
            have hholder := hparty.symm.trans (h.no_session_entered hentered hx)
            rw [hsubmits] at hholder
            exact absurd hholder (by simp)
          | holder =>
            -- the password they replaced was the holder's: no session is the stranger's
            have hnot : ¬Theirs crypto submits s := by
              obtain ⟨old, hold⟩ := h.hashed user current huser hcurrent
              obtain rfl := hlawful.sound old currentPassword current hold (by simpa using hverify)
              exact not_theirs hlawful huser hcurrent hold (hsame.trans hsubmits)
            refine ⟨fun _ htheirs => ?_, fun y hy hy' => ?_, hashed⟩
            · exact absurd htheirs (not_theirs hlawful rfl rfl hhash hsubmits)
            · rw [h.no_session hnot (List.mem_filter.mp hy).1] at hy'
              exact absurd hy' (by simp)

theorem safe_declare {session : S} (h : Safe crypto submits s) (hok : declare s session = .ok s') :
    Safe crypto submits s' := by
  rw [declare] at hok
  split at hok
  · cases hok
    have htheirs : Theirs crypto submits { s with user := s.user.map fun user => { user with full := true } } ↔
        Theirs crypto submits s := theirs_map (fun user => { user with full := true }) (fun _ => rfl) rfl
    have hverified : Verified { s with user := s.user.map fun user => { user with full := true } } ↔ Verified s := by
      simp [Verified]
    refine ⟨fun hentered hmine => ?_, fun x hx hparty => ?_, ?_⟩
    · rw [hverified]
      exact h.entered hentered (htheirs.mp hmine)
    · rw [htheirs, hverified]
      exact h.session x hx hparty
    · exact h.hashed_map (fun user => { user with full := true }) (fun _ => rfl) rfl
  · exact absurd hok (by simp)

end

/-- The account a sign-in with Google signs in to keeps its password, and its address as it was. -/
theorem safe_signInProfile [DecidableEq G] {sub : G} {session : S} (h : Safe crypto submits s)
    (hcareful : Theirs crypto submits s → ¬Verified s) : Safe crypto submits (signInProfile s sub session) := by
  have hsessions : ∀ x ∈ (signInProfile s sub session).sessions, x.party = .stranger → x ∈ s.sessions := by
    intro x hx hparty
    rcases List.mem_cons.mp hx with rfl | hx
    · exact absurd hparty (by simp)
    · exact hx
  -- a session of the stranger's would be on what the sign-in does not find
  have hnone : ∀ x ∈ (signInProfile s sub session).sessions, x.party ≠ .stranger := fun x hx hparty => by
    obtain ⟨htheirs, hverified⟩ := h.session x (hsessions x hx hparty) hparty
    exact hcareful htheirs hverified
  cases huser : s.user with
  | none =>
    refine ⟨?_, fun x hx hparty => absurd hparty (hnone x hx), ?_⟩
    · rintro - ⟨user, hash, _, hsome, hhash, -⟩
      simp only [signInProfile, huser, Option.some.injEq] at hsome
      subst hsome
      exact absurd hhash (by simp)
    · intro user hash hsome hhash
      simp only [signInProfile, huser, Option.some.injEq] at hsome
      subst hsome
      exact absurd hhash (by simp)
  | some user =>
    have hsame : (signInProfile s sub session).user =
        s.user.map fun user => if sub ∈ user.identities then user else { user with identities := sub :: user.identities } := by
      simp only [signInProfile, huser, Option.map_some]
    have hpassword : ∀ user : User H G,
        (if sub ∈ user.identities then user else { user with identities := sub :: user.identities }).passwordHash =
          user.passwordHash := fun user => by split <;> rfl
    have htheirs : Theirs crypto submits (signInProfile s sub session) ↔ Theirs crypto submits s :=
      theirs_map _ hpassword hsame
    have hverified : Verified (signInProfile s sub session) → Verified s := by
      rintro ⟨user', huser', hemail⟩
      rw [hsame] at huser'
      obtain ⟨user, hsome, rfl⟩ := Option.map_eq_some_iff.mp huser'
      refine ⟨user, hsome, ?_⟩
      split at hemail <;> exact hemail
    exact ⟨fun _ hmine hthere => hcareful (htheirs.mp hmine) (hverified hthere),
      fun x hx hparty => absurd hparty (hnone x hx), h.hashed_map _ hpassword hsame⟩

/-! ### Whole histories -/

section

variable [DecidableEq T] [DecidableEq S] [DecidableEq G]

/-- The address is not verified, once the holder has entered, with the password of the stranger on file: a sign-in does
    not find it so, and no live link is followed after it. -/
def Careful (crypto : Crypto H) (submits : Text → Party) (s : State H T S G) : Act H T S G → Prop
  | .verifyEmail _ token => live s token = true → s.entered = true → ¬Theirs crypto submits s
  | .signInProfile _ _ => Theirs crypto submits s → ¬Verified s
  | _ => True

/-- One request, of whoever may make it; `ok` says which are made. -/
def Played (crypto : Crypto H) (submits : Text → Party) (ok : State H T S G → Act H T S G → Prop)
    (s s' : State H T S G) : Prop :=
  ∃ a, Allowed crypto submits s a ∧ ok s a ∧ step crypto submits s a = s'

/-- STEP: a careful request keeps what holds. -/
theorem safe_step (hlawful : crypto.Lawful) (h : Safe crypto submits s) {a : Act H T S G}
    (hallowed : Allowed crypto submits s a) (hcareful : Careful crypto submits s a) :
    Safe crypto submits (step crypto submits s a) := by
  rw [step]
  split
  · rename_i s' hplay
    cases a with
    | register password hash token => exact safe_register h hallowed.1 hplay
    | resendVerification party token =>
      cases hplay
      exact safe_resendVerification h
    | verifyEmail party token =>
      refine safe_verifyEmail h (hcareful ?_) hplay
      exact (verifyEmail_eq_ok.mp hplay).1
    | login password session => exact safe_login hlawful h hplay
    | forgotPassword token =>
      cases hplay
      rw [forgotPassword]
      split
      · exact h.fewer rfl rfl fun _ => id
      · exact h
    | resetPassword token newPassword hash => exact safe_resetPassword hlawful hallowed.1 hallowed.2 hplay
    | setPassword session newPassword hash token =>
      exact safe_setPassword hlawful h hallowed.1 hallowed.2.1 hplay
    | changePassword session current newPassword hash =>
      exact safe_changePassword hlawful h hallowed.1 hallowed.2.1 hallowed.2.2 hplay
    | signInProfile sub session =>
      cases hplay
      exact safe_signInProfile h hcareful
    | declare session => exact safe_declare h hplay
    | endSession session =>
      cases hplay
      exact h.fewer rfl rfl fun x hx => (List.mem_filter.mp hx).1
    | wait clock =>
      cases hplay
      exact h.fewer rfl rfl fun _ => id
  · exact h

/-- RUN: so does a careful history. -/
theorem safe_run (hlawful : crypto.Lawful) {clock : ℤ}
    (hrun : ReflTransGen (Played crypto submits (Careful crypto submits)) (State.empty clock) s) :
    Safe crypto submits s := by
  induction hrun with
  | refl => exact safe_empty clock
  | tail _ hstep ih =>
    obtain ⟨a, hallowed, hcareful, rfl⟩ := hstep
    exact safe_step hlawful ih hallowed hcareful

/-- A careless request opens the account to the stranger: their password now opens a session. -/
theorem careless_opens (hlawful : crypto.Lawful) {a : Act H T S G} (hcareless : ¬Careful crypto submits s a) :
    (step crypto submits s a).entered = true ∧ ∃ password, submits password = .stranger ∧
      ∀ session, ∃ s', login crypto submits (step crypto submits s a) password session = .ok s' := by
  cases a with
  | verifyEmail party token =>
    simp only [Careful, not_forall, not_not] at hcareless
    obtain ⟨hlive, hentered, user, hash, password, huser, hhash, hpassword, hparty⟩ := hcareless
    have hplay : step crypto submits s (.verifyEmail party token) = { s with
        verifications := consume [token] s.verifications
        user := s.user.map fun user => { user with emailVerified := true } } := by
      rw [step, play, verifyEmail_eq_ok.mpr ⟨hlive, rfl⟩]
    rw [hplay]
    refine ⟨hentered, password, hparty, fun session => login_opens.mpr ?_⟩
    exact ⟨{ user with emailVerified := true }, hash, by simp [huser], hhash, hlawful.complete _ _ hpassword, rfl⟩
  | signInProfile sub session =>
    simp only [Careful, not_forall, not_not] at hcareless
    obtain ⟨⟨user, hash, password, huser, hhash, hpassword, hparty⟩, user', huser', hemail⟩ := hcareless
    obtain rfl := Option.some.inj (huser.symm.trans huser')
    refine ⟨rfl, password, hparty, fun session' => login_opens.mpr ?_⟩
    have hfound : (step crypto submits s (.signInProfile sub session)).user =
        some (if sub ∈ user.identities then user else { user with identities := sub :: user.identities }) := by
      simp only [step, play, signInProfile, huser]
    refine ⟨_, hash, hfound, ?_, hlawful.complete _ _ hpassword, ?_⟩
    · split <;> exact hhash
    · split <;> exact hemail
  | _ => exact absurd trivial hcareless

/-- CORRECT: in every careful history, once the holder has entered, the stranger's password opens nothing. -/
theorem stranger_refused (hlawful : crypto.Lawful) {clock : ℤ}
    (hrun : ReflTransGen (Played crypto submits (Careful crypto submits)) (State.empty clock) s)
    (hentered : s.entered = true) (password : Text) (hparty : submits password = .stranger) (session : S) :
    ¬∃ s', login crypto submits s password session = .ok s' := by
  intro hopens
  have hsafe := safe_run hlawful hrun
  obtain ⟨user, hash, huser, hhash, hverify, hemail⟩ := login_opens.mp hopens
  obtain ⟨hashed, hhashed⟩ := hsafe.hashed user hash huser hhash
  obtain rfl := hlawful.sound hashed password hash hhashed hverify
  exact hsafe.entered hentered ⟨user, hash, password, huser, hhash, hhashed, hparty⟩ ⟨user, huser, hemail⟩

/-- Requests that may be made one after the other. -/
def Playable (crypto : Crypto H) (submits : Text → Party) (ok : State H T S G → Act H T S G → Prop) :
    State H T S G → List (Act H T S G) → Prop
  | _, [] => True
  | s, a :: acts => (Allowed crypto submits s a ∧ ok s a) ∧ Playable crypto submits ok (step crypto submits s a) acts

theorem Playable.run {ok : State H T S G → Act H T S G → Prop} {acts : List (Act H T S G)}
    (h : Playable crypto submits ok s acts) :
    ReflTransGen (Played crypto submits ok) s (acts.foldl (step crypto submits) s) := by
  induction acts generalizing s with
  | nil => exact .refl
  | cons a acts ih => exact .head ⟨a, h.1.1, h.1.2, rfl⟩ (ih h.2)

end

/-! ### An account registered by a stranger -/

def strangersPassword : Text := "correct horse".toList

def holdersPassword : Text := "battery staple".toList

def submitted (password : Text) : Party := if password = strangersPassword then .stranger else .holder

/-- The holder signs in with Google, then resets the password. -/
def resetAfterGoogle : List (Act Text ℕ ℕ ℕ) :=
  [.register strangersPassword strangersPassword 0, .signInProfile 0 0, .forgotPassword 0,
    .resetPassword 0 holdersPassword holdersPassword]

theorem stranger_refused_reset : ¬∃ s', login plain submitted
    (resetAfterGoogle.foldl (step plain submitted) (State.empty 0)) strangersPassword 1 = .ok s' := by
  have hfree : (0 : ℕ) ∉ ([] : List ℕ) := List.not_mem_nil
  have hplayable : Playable plain submitted (Careful plain submitted) (State.empty 0) resetAfterGoogle := by
    refine ⟨⟨⟨rfl, by decide⟩, trivial⟩, ⟨hfree, ?_⟩, ⟨hfree, trivial⟩, ⟨⟨rfl, .inl (by decide)⟩, trivial⟩, trivial⟩
    -- the address is not verified
    rintro - ⟨user, ⟨⟩, hverified⟩
    exact absurd hverified (by decide)
  exact stranger_refused plain_lawful hplayable.run (by decide) strangersPassword (by decide) 1

/-- The holder signs in with Google, asks for a link, and follows it. -/
def verifiedAfterGoogle : List (Act Text ℕ ℕ ℕ) :=
  [.register strangersPassword strangersPassword 0, .wait minute, .signInProfile 0 0, .resendVerification .holder 1,
    .verifyEmail .holder 1]

/-- The link verifies the password of the stranger, who logs in. -/
theorem stranger_enters : ¬∀ s : State Text ℕ ℕ ℕ,
    ReflTransGen (Played plain submitted fun _ _ => True) (State.empty 0) s → s.entered = true →
    ∀ password, submitted password = .stranger → ∀ session, ¬∃ s', login plain submitted s password session = .ok s' := by
  intro hclaim
  have hplayable : Playable plain submitted (fun _ _ => True) (State.empty 0) verifiedAfterGoogle :=
    ⟨⟨⟨rfl, by decide⟩, trivial⟩, ⟨trivial, trivial⟩, ⟨(List.not_mem_nil : (0 : ℕ) ∉ ([] : List ℕ)), trivial⟩,
      ⟨(by decide : (1 : ℕ) ∉ [0]), trivial⟩, ⟨.inl ⟨rfl, by decide⟩, trivial⟩, trivial⟩
  refine hclaim _ hplayable.run (by decide) strangersPassword (by decide) 1 (login_opens.mpr ?_)
  exact ⟨⟨some strangersPassword, true, true, [0]⟩, strangersPassword, rfl, rfl, rfl, rfl⟩

end Home.Auth.Address
