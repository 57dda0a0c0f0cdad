import ManageOurHome.Auth.PasswordChange

/-! @src apps/api/src/auth/mod.rs, apps/api/src/auth/session.rs | layer:proof | family:authentication

    A change of password cuts off what the old one opened, over every interleaving in which no login inserts its
    session after the revocation of a password newer than the one it verified. The login checks nothing when it
    inserts: one that has verified the old password, and is overtaken by a whole change, opens a session the
    revocation never saw.

        login: SELECT, argon2 ─ reset: UPDATE, commit, revoke, 200 ─ login: INSERT, open with the old password -/

namespace Home.Auth.PasswordChange

open RowLocks

variable {H T S : Type} {crypto : Crypto H} {opens : Db H T S → ℕ → Prop} {s s' : Db H T S} {l l' : Pc H T S}

/-- No password later than `seen` has had its revocation run. -/
def InTime (s : Db H T S) (seen : ℕ) : Prop := ∀ c ∈ s.cutOff, c.password ≤ seen

/-- Of the sessions in use, those opened with an older password than that of `c` are the one it keeps. -/
def CutOff (c : Change S) (sessions : List (Session S)) : Prop :=
  ∀ x ∈ sessions, x.revoked = false → ∀ n, x.login = some n → c.password ≤ n ∨ c.kept = some x.id

/-- The account before any of the requests. -/
structure Db.Fresh (s : Db H T S) : Prop where
  spent : s.spent = []
  cutOff : s.cutOff = []
  answered : s.answered = []

theorem CutOff.sub {c : Change S} {sessions sessions' : List (Session S)} (h : CutOff c sessions)
    (hsub : ∀ x ∈ sessions', x.revoked = false → x ∈ sessions) : CutOff c sessions' := fun x hx hlive =>
  h x (hsub x hx hlive) hlive

theorem CutOff.cons {c : Change S} {x : Session S} {sessions : List (Session S)} (h : CutOff c sessions)
    (hx : ∀ n, x.login = some n → c.password ≤ n) : CutOff c (x :: sessions) := by
  intro y hy hlive n hn
  rcases List.mem_cons.mp hy with rfl | hy
  · exact .inl (hx n hn)
  · exact h y hy hlive n hn

/-- Every revocation that has run still holds, and every request that has answered had run its own. -/
structure AllCutOff (s : Db H T S) : Prop where
  cutOff : ∀ c ∈ s.cutOff, CutOff c s.sessions
  answered : ∀ c ∈ s.answered, c ∈ s.cutOff

/-- A request about to answer has run its revocation. -/
def Revoked (s : Db H T S) (l : Pc H T S) : Prop := ∀ c, l = .answering c → c ∈ s.cutOff

/-- A login that inserts its session late leaves a revocation that has run undone, but for the session it keeps. -/
theorem late_not_cutOff (id : S) (seen : ℕ) {c : Change S} (hc : c ∈ s.cutOff) (hlate : seen < c.password)
    (hkept : c.kept ≠ some id) : ¬AllCutOff (s.insertSession id seen) := by
  intro h
  rcases h.cutOff c hc ⟨id, false, some seen⟩ List.mem_cons_self rfl seen rfl with hle | hid
  · exact absurd hlate hle.not_gt
  · exact hkept hid

/-! ### A token sets one password -/

/-- No token that has set a password is left, nor has set two. -/
structure SpentOnce (s : Db H T S) : Prop where
  nodup : s.spent.Nodup
  gone : ∀ t ∈ s.spent, t ∉ s.resets.map ResetToken.token

/-- The token a request holds is there. -/
def Holding (s : Db H T S) (l : Pc H T S) : Prop :=
  ∀ t, (.reset t, .update) ∈ l.held → t ∈ s.resets.map ResetToken.token

theorem holding_nil (s : Db H T S) (h : l.held = []) : Holding s l := by
  intro t ht
  rw [h] at ht
  exact absurd ht List.not_mem_nil

theorem Holding.of_held (h : Holding s l) (hheld : ∀ t, (.reset t, .update) ∈ l'.held → (.reset t, .update) ∈ l.held) :
    Holding s l' := fun t ht => h t (hheld t ht)

variable [DecidableEq T]

theorem mem_commit_resets {token : Option T} {hash : H} {t : T} :
    t ∈ (s.commit token hash).resets.map ResetToken.token ↔ t ∈ s.resets.map ResetToken.token ∧ some t ≠ token := by
  simp only [Db.commit, List.mem_map, List.mem_filter, decide_eq_true_eq]
  constructor
  · rintro ⟨r, ⟨hr, hne⟩, rfl⟩
    exact ⟨⟨r, hr, rfl⟩, hne⟩
  · rintro ⟨⟨r, hr, rfl⟩, hne⟩
    exact ⟨r, ⟨hr, hne⟩, rfl⟩

theorem SpentOnce.commit {token : Option T} {hash : H} (h : SpentOnce s)
    (hheld : ∀ t, token = some t → t ∈ s.resets.map ResetToken.token) : SpentOnce (s.commit token hash) := by
  have hgone : ∀ t ∈ s.spent, t ∉ (s.commit token hash).resets.map ResetToken.token := by
    intro t ht hmem
    exact h.gone t ht (mem_commit_resets.mp hmem).1
  cases token with
  | none => exact ⟨h.nodup, hgone⟩
  | some t =>
    have hnew : t ∉ s.spent := fun ht => h.gone t ht (hheld t rfl)
    refine ⟨List.nodup_cons.mpr ⟨hnew, h.nodup⟩, ?_⟩
    intro u hu hmem
    rcases List.mem_cons.mp hu with rfl | hu
    · exact (mem_commit_resets.mp hmem).2 rfl
    · exact hgone u hu hmem

variable [DecidableEq S]

/-- STEP: nothing is spent twice. -/
theorem preserved_spentOnce : Preserved (system crypto opens) SpentOnce (Holding (S := S)) where
  env s s' h henv := by
    cases henv with
    | tick clock hclock => exact ⟨h.nodup, h.gone⟩
    | mailed r hnew =>
      refine ⟨h.nodup, ?_⟩
      intro t ht hmem
      rcases List.mem_cons.mp hmem with rfl | hmem
      · exact hnew ht
      · exact h.gone t ht hmem
    | verified emailVerified => exact ⟨h.nodup, h.gone⟩
    | opened id hnew => exact ⟨h.nodup, h.gone⟩
    | ended id => exact ⟨h.nodup, h.gone⟩
  env_client s s' l _ hl henv := by
    intro t ht
    cases henv with
    | mailed r hnew => exact List.mem_cons_of_mem _ (hl t ht)
    | tick clock hclock => exact hl t ht
    | verified emailVerified => exact hl t ht
    | opened id hnew => exact hl t ht
    | ended id => exact hl t ht
  move s l s' l' h hl hmove := by
    cases hmove with
    | lockToken token newPassword r hr htoken =>
      refine ⟨h, ?_⟩
      intro t ht
      obtain rfl : t = token := by simpa [Pc.held] using ht
      exact List.mem_map.mpr ⟨r, hr, htoken⟩
    | hashNew token newPassword expiresAt hash hexpires hvalid hhash => exact ⟨h, hl.of_held fun _ => id⟩
    | delete token hash => exact ⟨h, hl.of_held fun _ => id⟩
    | update token hash =>
      refine ⟨h, hl.of_held fun t ht => ?_⟩
      simpa [Pc.held] using ht
    | write session hash =>
      refine ⟨h, fun t ht => ?_⟩
      exact absurd ht (by simp [Pc.held])
    | commit token hash kept =>
      refine ⟨h.commit fun t ht => hl t ?_, holding_nil _ rfl⟩
      subst ht
      exact List.mem_cons_of_mem _ List.mem_cons_self
    | insertSession seen id hnew hopens => exact ⟨⟨h.nodup, h.gone⟩, holding_nil _ rfl⟩
    | revoke change => exact ⟨⟨h.nodup, h.gone⟩, holding_nil _ rfl⟩
    | answer change => exact ⟨⟨h.nodup, h.gone⟩, holding_nil _ rfl⟩
    | giveUp | lookup | verify | reset | authenticate | readHash | checkCurrent => exact ⟨h, holding_nil _ rfl⟩
  move_other s l s' l' m hapart h hl hm hmove := by
    intro t ht
    cases hmove with
    | commit token hash kept =>
      refine mem_commit_resets.mpr ⟨hm t ht, ?_⟩
      rintro rfl
      -- both would hold it
      exact hapart.not_update (List.mem_cons_of_mem _ List.mem_cons_self) ht
    | _ => exact hm t ht

/-! ### What is cut off -/

theorem mem_revokeAllSessions {kept : Option S} {sessions : List (Session S)} {x : Session S}
    (hx : x ∈ revokeAllSessions kept sessions) (hlive : x.revoked = false) : x ∈ sessions ∧ some x.id = kept := by
  obtain ⟨y, hy, rfl⟩ := List.mem_map.mp hx
  by_cases hcond : y.revoked ∨ some y.id = kept
  · rw [if_pos hcond] at hlive ⊢
    exact ⟨hy, hcond.resolve_left (by simp [hlive])⟩
  · rw [if_neg hcond] at hlive
    exact absurd hlive (by simp)

theorem cutOff_revokeAllSessions (c : Change S) (sessions : List (Session S)) :
    CutOff c (revokeAllSessions c.kept sessions) := fun _ hx hlive _ _ =>
  .inr (mem_revokeAllSessions hx hlive).2.symm

/-- STEP: what is cut off stays so. -/
theorem preserved_cutOff : Preserved (system (T := T) crypto InTime) AllCutOff (Revoked (S := S)) where
  env s s' h henv := by
    refine ⟨fun c hc => ?_, ?_⟩
    · cases henv with
      | tick clock hclock => exact h.cutOff c hc
      | mailed r hnew => exact h.cutOff c hc
      | verified emailVerified => exact h.cutOff c hc
      | opened id hnew => exact (h.cutOff c hc).cons fun n hn => absurd hn (by simp)
      | ended id =>
        refine (h.cutOff c hc).sub fun x hx hlive => ?_
        obtain ⟨y, hy, rfl⟩ := List.mem_map.mp hx
        by_cases hid : y.id = id
        · rw [if_pos hid] at hlive
          exact absurd hlive (by simp)
        · rw [if_neg hid]
          exact hy
    · cases henv <;> exact h.answered
  env_client s s' l _ hl henv := by
    intro c hc
    cases henv <;> exact hl c hc
  move s l s' l' h hl hmove := by
    cases hmove with
    | insertSession seen id hnew hopens =>
      refine ⟨⟨fun c hc => (h.cutOff c hc).cons fun n hn => ?_, h.answered⟩, fun c hc => absurd hc (by simp)⟩
      obtain rfl : seen = n := by simpa using hn
      exact hopens c hc
    | revoke change =>
      refine ⟨⟨fun c hc => ?_, fun c hc => List.mem_cons_of_mem _ (h.answered c hc)⟩, ?_⟩
      · rcases List.mem_cons.mp hc with rfl | hc
        · exact cutOff_revokeAllSessions c s.sessions
        · exact (h.cutOff c hc).sub fun x hx hlive => (mem_revokeAllSessions hx hlive).1
      · rintro c ⟨⟩
        exact List.mem_cons_self
    | answer change =>
      refine ⟨⟨h.cutOff, fun c hc => ?_⟩, fun c hc => absurd hc (by simp)⟩
      rcases List.mem_cons.mp hc with rfl | hc
      · exact hl c rfl
      · exact h.answered c hc
    | commit token hash kept => exact ⟨⟨h.cutOff, h.answered⟩, fun c hc => absurd hc (by simp)⟩
    | _ => exact ⟨h, fun c hc => absurd hc (by simp)⟩
  move_other s l s' l' m _ _ _ hm hmove := by
    intro c hc
    cases hmove with
    | revoke change => exact List.mem_cons_of_mem _ (hm c hc)
    | _ => exact hm c hc

/-- CORRECT: a token sets one password at most; and where no login inserts its session after the revocation of a
    later password than the one it verified, a change that has answered leaves in use no session opened with an
    older one, but the session it keeps. -/
theorem cuts_off {τ : Type} [DecidableEq τ] {w w' : World (Db H T S) (Pc H T S) τ} (hfresh : w.shared.Fresh) (hidle : ∀ i, w.client i = .idle) :
    (Steps (system crypto fun _ _ => True) w w' → w'.shared.spent.Nodup) ∧
    (Steps (system crypto InTime) w w' → ∀ c ∈ w'.shared.answered, CutOff c w'.shared.sessions) := by
  constructor
  · intro hrun
    have hstart : Holds (system crypto fun _ _ => True) SpentOnce Holding w := by
      refine .of_nil (fun i => by rw [hidle i]; rfl) ⟨?_, ?_⟩ fun i => by rw [hidle i]; exact holding_nil _ rfl
      · rw [hfresh.spent]
        exact List.nodup_nil
      · rw [hfresh.spent]
        exact fun t ht => absurd ht List.not_mem_nil
    exact (preserved_spentOnce.steps hstart hrun).shared.nodup
  · intro hrun c hc
    have hstart : Holds (system crypto InTime) AllCutOff Revoked w := by
      refine .of_nil (fun i => by rw [hidle i]; rfl) ⟨?_, ?_⟩ fun i c hc => ?_
      · rw [hfresh.cutOff]
        exact fun c hc => absurd hc List.not_mem_nil
      · rw [hfresh.answered]
        exact fun c hc => absurd hc List.not_mem_nil
      · rw [hidle i] at hc
        exact absurd hc (by simp)
    have hend := (preserved_cutOff.steps hstart hrun).shared
    exact hend.cutOff c (hend.answered c hc)

/-! ### A login overtaken by a reset -/

def oldPassword : Text := "correct horse".toList

def newPassword : Text := "battery staple".toList

/-- A verified address, one password, one reset mailed. -/
def account : Db Text ℕ ℕ := ⟨0, true, [oldPassword], [⟨0, 3600⟩], [], [], [], []⟩

/-- After the reset. -/
def wasReset : Db Text ℕ ℕ := ⟨0, true, [newPassword, oldPassword], [], [], [0], [⟨2, none⟩], [⟨2, none⟩]⟩

section

variable {opens : Db Text ℕ ℕ → ℕ → Prop}

/-- The whole reset, beside a request that holds nothing. -/
theorem reset_beside {l : Pc Text ℕ ℕ} (hl : l.held = []) :
    Steps (system plain opens) ⟨account, two l .idle⟩ ⟨wasReset, two l .idle⟩ := by
  have hapart : ∀ l', (system plain opens).Apart l' l := System.apart_of_nil hl
  refine .head (Step.second (.reset account 0 newPassword) (hapart _)) ?_
  refine .head (Step.second (.lockToken account 0 newPassword ⟨0, 3600⟩ List.mem_cons_self rfl) (hapart _)) ?_
  refine .head (Step.second (.hashNew account 0 newPassword 3600 newPassword (by decide) (by decide) rfl) (hapart _)) ?_
  refine .head (Step.second (.delete account 0 newPassword) (hapart _)) ?_
  refine .head (Step.second (.update account 0 newPassword) (hapart _)) ?_
  refine .head (Step.second (.commit account (some 0) newPassword none) (hapart _)) ?_
  refine .head (Step.second (.revoke _ _) (hapart _)) ?_
  exact .single (Step.second (.answer _ _) (hapart _))

/-- A login with a password, up to its session. -/
theorem login_beside {s : Db Text ℕ ℕ} {password : Text} (h : s.hashes.head? = some password)
    (hverified : s.emailVerified = true) :
    Steps (system plain opens) ⟨s, two .idle .idle⟩ ⟨s, two (.opening s.hashes.length) .idle⟩ := by
  have hapart : ∀ l', (system plain opens).Apart l' .idle := System.apart_of_nil rfl
  refine .head (Step.first (.lookup s password) (hapart _)) ?_
  rw [h, hverified]
  exact .single (Step.first (.verify s password password _ (by simp [plain])) (hapart _))

theorem insert_beside {s : Db Text ℕ ℕ} {seen id : ℕ} (hnew : id ∉ s.sessions.map Session.id) (hopens : opens s seen) :
    Steps (system plain opens) ⟨s, two (.opening seen) .idle⟩ ⟨s.insertSession id seen, two .idle .idle⟩ :=
  .single (Step.first (.insertSession s seen id hnew hopens) (System.apart_of_nil rfl _))

end

theorem idle_two (i : Bool) : two (Pc.idle : Pc Text ℕ ℕ) .idle i = .idle := by cases i <;> rfl

/-- A login after the reset opens a session, with the new password. -/
theorem cuts_off_reset : (wasReset.insertSession 1 2).spent.Nodup ∧
    ∀ c ∈ (wasReset.insertSession 1 2).answered, CutOff c (wasReset.insertSession 1 2).sessions := by
  have hrun : ∀ {opens : Db Text ℕ ℕ → ℕ → Prop}, opens wasReset 2 →
      Steps (system plain opens) ⟨account, two .idle .idle⟩ ⟨wasReset.insertSession 1 2, two .idle .idle⟩ := fun hopens =>
    (reset_beside rfl).trans ((login_beside rfl rfl).trans (insert_beside (by decide) hopens))
  have hfresh : account.Fresh := ⟨rfl, rfl, rfl⟩
  exact ⟨(cuts_off hfresh idle_two).1 (hrun trivial), (cuts_off hfresh idle_two).2 (hrun (by simp [InTime, wasReset]))⟩

/-- The login verified the old password before the reset, and inserts its session after it has answered. -/
theorem overtaken : ¬∀ w w' : World (Db Text ℕ ℕ) (Pc Text ℕ ℕ) Bool, w.shared.Fresh → (∀ i, w.client i = .idle) →
    Steps (system plain fun _ _ => True) w w' →
    w'.shared.spent.Nodup ∧ ∀ c ∈ w'.shared.answered, CutOff c w'.shared.sessions := by
  intro hclaim
  have hrun : Steps (system plain fun _ _ => True) ⟨account, two .idle .idle⟩
      ⟨wasReset.insertSession 1 1, two .idle .idle⟩ :=
    (login_beside rfl rfl).trans ((reset_beside rfl).trans (insert_beside (by decide) trivial))
  have hcut := (hclaim _ _ ⟨rfl, rfl, rfl⟩ idle_two hrun).2 ⟨2, none⟩ (by decide)
  rcases hcut ⟨1, false, some 1⟩ List.mem_cons_self rfl 1 rfl with hle | hkept
  · exact absurd hle (by decide)
  · exact absurd hkept (by decide)

end Home.Auth.PasswordChange
