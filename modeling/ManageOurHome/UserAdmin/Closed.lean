import Mathlib.Order.Lattice
import ManageOurHome.UserAdmin.Session

/-! @src apps/api/src/auth/session.rs, apps/api/src/user_admin/mod.rs | layer:proof | family:sessions

    A closed admin access never reopens, as long as the idle timeout does not fall between a request's two
    readings of the clock. Where it does, the request is refused for inactivity on the second reading when
    the first has closed nothing and has the session marked as used: the next request is let in.

        10:00:00 judged, used at 08:00:00 ─▶ UPDATE last_seen_at ─▶ 10:00:01 refused ─▶ 10:00:02 let in -/

namespace Home.UserAdmin

open Atomic

variable {now created expires seen : ℤ} {row : SessionRow}

/-! ### The verdicts -/

theorem superadminSessionIsIdle_iff : superadminSessionIsIdle now seen = true ↔ seen + 2 * hour < now := by
  rw [superadminSessionIsIdle, decide_eq_true_eq, SUPERADMIN_IDLE_TIMEOUT_HOURS]

theorem isIdle_iff : isIdle now seen = true ↔ seen + 7 * day < now := by
  rw [isIdle, decide_eq_true_eq, SESSION_IDLE_TIMEOUT_DAYS]

theorem lastSeenNeedsRefresh_eq_false (h : lastSeenNeedsRefresh now seen = false) : now ≤ seen + 60 * minute := by
  rw [lastSeenNeedsRefresh, decide_eq_false_iff_not, LAST_SEEN_REFRESH_MINUTES] at h
  exact not_lt.mp h

theorem adminAccessMargin_eq : adminAccessMargin = 30 * day - 12 * hour := rfl

theorem adminAccessEnd_mono {expires' : ℤ} (h : expires ≤ expires') : adminAccessEnd expires ≤ adminAccessEnd expires' := by
  rw [adminAccessEnd, adminAccessEnd]
  omega

theorem superadminSessionIsFresh_iff : superadminSessionIsFresh now created expires seen = true ↔
    now ≤ created + 12 * hour ∧ now ≤ adminAccessEnd expires ∧ now ≤ seen + 2 * hour := by
  rw [superadminSessionIsFresh, decide_eq_true_eq, SUPERADMIN_SESSION_MAX_AGE_HOURS, Bool.not_eq_true',
    Bool.eq_false_iff, ne_eq, superadminSessionIsIdle_iff, not_lt]

/-- A closure ends the admin access where the timeout fell, and brings the end of the session forward. -/
theorem closedAdminExpiry_eq_some {closed : ℤ} (h : closedAdminExpiry now expires seen = some closed) :
    seen + 2 * hour < now ∧ closed = seen + 2 * hour + adminAccessMargin ∧ closed < expires := by
  rw [closedAdminExpiry] at h
  split at h
  · exact absurd h (by simp)
  · rename_i hopen
    rw [Bool.not_eq_true', not_or, Bool.not_eq_false, superadminSessionIsIdle_iff] at hopen
    dsimp only at h
    split at h
    · rename_i hlt
      obtain rfl := Option.some.inj h
      exact ⟨hopen.1, rfl, hlt⟩
    · exact absurd h (by simp)

/-- A session found idle is closed: its admin access ends before now, by the closure or already. -/
theorem adminAccessEnd_closed (expires : ℤ) (h : seen + 2 * hour < now) :
    adminAccessEnd ((closedAdminExpiry now expires seen).getD expires) < now := by
  rw [closedAdminExpiry]
  split
  · rename_i hnothing
    rw [Bool.not_eq_true', Bool.eq_false_iff, ne_eq, superadminSessionIsIdle_iff] at hnothing
    exact hnothing.resolve_left (not_not_intro h)
  · dsimp only
    split
    · rw [Option.getD_some, adminAccessEnd, SUPERADMIN_IDLE_TIMEOUT_HOURS]
      omega
    · rename_i hnot
      rw [Option.getD_none, adminAccessEnd]
      rw [SUPERADMIN_IDLE_TIMEOUT_HOURS] at hnot
      omega

theorem closedExpiry_le : (closedExpiry now row).getD row.expiresAt ≤ row.expiresAt := by
  rw [closedExpiry]
  split
  · rcases hclosed : closedAdminExpiry now row.expiresAt row.lastSeenAt with _ | closed
    · exact le_refl _
    · exact le_of_lt (closedAdminExpiry_eq_some hclosed).2.2
  · exact le_refl _

theorem authUser_eq (session : LoadedSession) :
    (session.access = .Full ∧ authUser session = .ok session) ∨
      ∃ e, e ≠ .Unauthorized ∧ authUser session = .error e := by
  rw [authUser]
  split
  · rename_i hfull
    exact Or.inl ⟨hfull, rfl⟩
  all_goals exact Or.inr ⟨_, by simp, rfl⟩

/-- A superadmin's session is let in when fresh. -/
theorem superAdminUser_ok {session auth : LoadedSession} (h : superAdminUser now session = .ok auth) :
    session.access = .Full ∧
      superadminSessionIsFresh now session.createdAt session.expiresAt session.lastSeenAt = true := by
  rcases authUser_eq session with ⟨hfull, hok⟩ | ⟨e, _, he⟩
  · rw [superAdminUser, hok] at h
    dsimp only at h
    split at h
    · exact absurd h (by simp)
    · split at h
      · exact absurd h (by simp)
      · rename_i hfresh
        exact ⟨hfull, by simpa using hfresh⟩
  · rw [superAdminUser, he] at h
    exact absurd h (by simp)

theorem superAdminUser_unauthorized {session : LoadedSession}
    (h : superAdminUser now session = .error .Unauthorized) (hsuper : session.isSuperadmin = true) :
    session.access = .Full ∧
      superadminSessionIsFresh now session.createdAt session.expiresAt session.lastSeenAt = false := by
  rcases authUser_eq session with ⟨hfull, hok⟩ | ⟨e, hne, he⟩
  · rw [superAdminUser, hok] at h
    dsimp only at h
    rw [if_neg (by simp [hsuper])] at h
    split at h
    · rename_i hstale
      exact ⟨hfull, by simpa using hstale⟩
    · exact absurd h (by simp)
  · rw [superAdminUser, he] at h
    exact absurd (Except.error.inj h) hne

/-- A verdict that does not refuse: the session has not expired, and was used within the 7 days. -/
theorem sessionState_ne_refused (h : sessionState now row ≠ .Refused) :
    row.revoked = false ∧ now ≤ row.expiresAt ∧ now ≤ row.lastSeenAt + 7 * day := by
  rw [sessionState] at h
  split at h
  · exact absurd rfl h
  · rename_i hlive
    rw [not_or, not_or, isIdle_iff, not_lt, not_lt, Bool.not_eq_true] at hlive
    exact hlive

/-! ### What a request knows -/

/-- What holds of the row at any moment: it ends within the lifetime, and not much before. -/
structure Sound (s : Store) : Prop where
  superadmin : s.row.isSuperadmin = true
  seen : s.row.createdAt ≤ s.row.lastSeenAt
  clock : s.row.createdAt ≤ s.clock
  ends : s.row.expiresAt ≤ s.row.createdAt + SESSION_TTL_DAYS * day
  shortened : s.row.createdAt + SESSION_TTL_DAYS * day -
    (SUPERADMIN_SESSION_MAX_AGE_HOURS - SUPERADMIN_IDLE_TIMEOUT_HOURS) * hour ≤ s.row.expiresAt

/-- What happens between two moments, as far as the requests are concerned. -/
structure Later (s s' : Store) : Prop where
  clock : s.clock ≤ s'.clock
  created : s'.row.createdAt = s.row.createdAt
  expires : s'.row.expiresAt ≤ s.row.expiresAt

theorem Later.refl (s : Store) : Later s s := ⟨le_refl _, rfl, le_refl _⟩

/-- A row read a moment ago. -/
structure Seen (s : Store) (row : SessionRow) : Prop where
  superadmin : row.isSuperadmin = true
  created : row.createdAt = s.row.createdAt
  seen : row.createdAt ≤ row.lastSeenAt
  expires : s.row.expiresAt ≤ row.expiresAt

theorem Seen.later {s s' : Store} (h : Seen s row) (hlater : Later s s') : Seen s' row :=
  ⟨h.superadmin, h.created.trans hlater.created.symm, h.seen, hlater.expires.trans h.expires⟩

/-- No admin route takes the session any more. -/
def Shut (s : Store) : Prop :=
  s.row.createdAt + SUPERADMIN_SESSION_MAX_AGE_HOURS * hour < s.clock ∨ adminAccessEnd s.row.expiresAt < s.clock

theorem Shut.later {s s' : Store} (h : Shut s) (hlater : Later s s') : Shut s' := by
  rcases h with hage | hend
  · refine Or.inl ?_
    rw [hlater.created]
    exact lt_of_lt_of_le hage hlater.clock
  · exact Or.inr (lt_of_le_of_lt (adminAccessEnd_mono hlater.expires) (lt_of_lt_of_le hend hlater.clock))

/-- Refused on an admin route, though its account would be let in had the session just been used. -/
def RefusedIdle (r : Request) : Prop :=
  ∃ row judgedAt now, r = .answered .admin row judgedAt now (.error .Unauthorized) ∧
    sessionState judgedAt { row with lastSeenAt := judgedAt } = .Full

/-- Let in on an admin route at `now`. -/
def Accepted (r : Request) (now : ℤ) : Prop :=
  ∃ row judgedAt session, r = .answered .admin row judgedAt now (.ok session)

/-- What holds of a request, wherever it stands. -/
def Told (s : Store) : Request → Prop
  | .waiting _ => True
  | .found _ row => Seen s row
  | .judged _ row judgedAt => Seen s row ∧ judgedAt ≤ s.clock
  | .updating _ row judgedAt stamp => Seen s row ∧ judgedAt ≤ s.clock ∧ s.row.createdAt ≤ stamp
  | .loaded _ row judgedAt =>
    Seen s row ∧ judgedAt ≤ s.clock ∧ s.row.expiresAt ≤ (closedExpiry judgedAt row).getD row.expiresAt
  | .answered route row judgedAt now answer =>
    (RefusedIdle (.answered route row judgedAt now answer) → Shut s) ∧
      (Accepted (.answered route row judgedAt now answer) now →
        now ≤ s.row.createdAt + SUPERADMIN_SESSION_MAX_AGE_HOURS * hour)

theorem Told.later {s s' : Store} {r : Request} (h : Told s r) (hlater : Later s s') : Told s' r := by
  rcases r with route | ⟨route, row⟩ | ⟨route, row, judgedAt⟩ | ⟨route, row, judgedAt, stamp⟩ |
    ⟨route, row, judgedAt⟩ | ⟨route, row, judgedAt, now, answer⟩
  · exact trivial
  · exact Seen.later h hlater
  · exact ⟨h.1.later hlater, h.2.trans hlater.clock⟩
  · exact ⟨h.1.later hlater, h.2.1.trans hlater.clock, hlater.created ▸ h.2.2⟩
  · exact ⟨h.1.later hlater, h.2.1.trans hlater.clock, hlater.expires.trans h.2.2⟩
  · refine ⟨fun hrefused => (h.1 hrefused).later hlater, fun haccepted => ?_⟩
    rw [hlater.created]
    exact h.2 haccepted

/-- The idle timeout falls between the two readings of the clock of a request the session is else fresh for. -/
def Lapses (s : Store) (r : Request) : Prop :=
  ∃ row judgedAt, r = .loaded .admin row judgedAt ∧ superadminSessionIsIdle judgedAt row.lastSeenAt = false ∧
    superadminSessionIsIdle s.clock row.lastSeenAt = true ∧
    s.clock ≤ row.createdAt + SUPERADMIN_SESSION_MAX_AGE_HOURS * hour ∧ s.clock ≤ adminAccessEnd row.expiresAt

/-- The requests, the timeout falling between no two readings. -/
abbrev settled : System Store Request := requests.only fun s r => ¬Lapses s r

/-! ### One step -/

theorem Outside.later {s s' : Store} (h : Outside s s') : Later s s' := by
  cases h with
  | tick c hc => exact ⟨hc, rfl, le_refl _⟩
  | other row hcreated hexpires hseen hsuper => exact ⟨le_refl _, hcreated, hexpires.le⟩

theorem Outside.sound {s s' : Store} (h : Outside s s') (hsound : Sound s) : Sound s' := by
  cases h with
  | tick c hc =>
    exact ⟨hsound.superadmin, hsound.seen, le_trans hsound.clock hc, hsound.ends, hsound.shortened⟩
  | other row hcreated hexpires hseen hsuper =>
    refine ⟨hsuper.trans hsound.superadmin, ?_, ?_, ?_, ?_⟩
    · change row.createdAt ≤ row.lastSeenAt
      rw [hcreated, hseen]
      exact hsound.seen
    · change row.createdAt ≤ s.clock
      rw [hcreated]
      exact hsound.clock
    · change row.expiresAt ≤ row.createdAt + _
      rw [hcreated, hexpires]
      exact hsound.ends
    · change row.createdAt + _ - _ ≤ row.expiresAt
      rw [hcreated, hexpires]
      exact hsound.shortened

theorem Serve.later {s s' : Store} {r r' : Request} (h : Serve s r s' r') : Later s s' := by
  cases h with
  | read | refuse | judge | keep | update | answer => exact Later.refl _
  | commit => exact ⟨le_refl _, rfl, min_le_left _ _⟩

/-- A closure shortens the session by no more than the max age less the timeout. -/
theorem Seen.closedExpiry_ge {s : Store} (h : Seen s row) (hsound : Sound s) :
    s.row.createdAt + SESSION_TTL_DAYS * day -
        (SUPERADMIN_SESSION_MAX_AGE_HOURS - SUPERADMIN_IDLE_TIMEOUT_HOURS) * hour ≤
      (closedExpiry now row).getD s.row.expiresAt := by
  rw [closedExpiry, if_pos h.superadmin]
  rcases hclosed : closedAdminExpiry now row.expiresAt row.lastSeenAt with _ | closed
  · exact hsound.shortened
  · obtain ⟨_, heq, _⟩ := closedAdminExpiry_eq_some hclosed
    have hcreated := h.created
    have hseen := h.seen
    rw [Option.getD_some, heq, adminAccessMargin, SESSION_TTL_DAYS, SUPERADMIN_SESSION_MAX_AGE_HOURS,
      SUPERADMIN_IDLE_TIMEOUT_HOURS]
    omega

theorem Serve.sound {s s' : Store} {r r' : Request} (h : Serve s r s' r') (hsound : Sound s) (htold : Told s r) :
    Sound s' := by
  cases h with
  | read | refuse | judge | keep | update | answer => exact hsound
  | commit route row judgedAt stamp =>
    obtain ⟨hseen, _, hstamp⟩ := htold
    exact ⟨hsound.superadmin, hstamp, hsound.clock, le_trans (min_le_left _ _) hsound.ends,
      le_min hsound.shortened (hseen.closedExpiry_ge hsound)⟩

/-- A session within its max age is within its 7 days: refused for these, it is past its max age. -/
theorem Seen.shut_of_refused {s : Store} (h : Seen s row) (hrefused : sessionState s.clock row = .Refused)
    (hfull : sessionState s.clock { row with lastSeenAt := s.clock } = .Full) : Shut s := by
  have hidle : row.lastSeenAt + 7 * day < s.clock := by
    by_contra hused
    obtain ⟨hrevoked, hexpires, _⟩ := sessionState_ne_refused (hfull ▸ by simp :
      sessionState s.clock { row with lastSeenAt := s.clock } ≠ .Refused)
    have hlive : ¬(row.revoked = true ∨ row.expiresAt < s.clock ∨ isIdle s.clock row.lastSeenAt = true) := by
      rw [isIdle_iff]
      rintro (hr | he | hi)
      · exact absurd (hrevoked.symm.trans hr) (by simp)
      · exact absurd hexpires (not_le.mpr he)
      · exact hused hi
    have hnow : ¬(row.revoked = true ∨ row.expiresAt < s.clock ∨ isIdle s.clock s.clock = true) := by
      rw [isIdle_iff]
      rintro (hr | he | hi)
      · exact absurd (hrevoked.symm.trans hr) (by simp)
      · exact absurd hexpires (not_le.mpr he)
      · exact absurd hi (by rw [day, hour, minute, second]; omega)
    rw [sessionState, if_neg hlive] at hrefused
    rw [sessionState, if_neg hnow] at hfull
    exact absurd (hrefused.symm.trans hfull) (by simp)
  have hseen := h.seen
  have hcreated := h.created
  refine Or.inl ?_
  rw [SUPERADMIN_SESSION_MAX_AGE_HOURS]
  rw [day] at hidle
  have hhour : 0 < hour := by decide
  omega

/-- Refused on the second reading, the session is closed, or past its max age. -/
theorem Seen.shut_of_stale {s : Store} {judgedAt : ℤ} (h : Seen s row)
    (hclosed : s.row.expiresAt ≤ (closedExpiry judgedAt row).getD row.expiresAt) (hjudged : judgedAt ≤ s.clock)
    (hsettled : ¬Lapses s (.loaded .admin row judgedAt))
    (hanswer : superAdminUser s.clock (loadedSession judgedAt row) = .error .Unauthorized) : Shut s := by
  have hstale : superadminSessionIsFresh s.clock row.createdAt ((closedExpiry judgedAt row).getD row.expiresAt)
      row.lastSeenAt ≠ true := fun hfresh => by
    obtain ⟨_, hnot⟩ := superAdminUser_unauthorized hanswer h.superadmin
    exact absurd (hfresh.symm.trans hnot) (by simp)
  rw [ne_eq, superadminSessionIsFresh_iff] at hstale
  have hends : adminAccessEnd s.row.expiresAt ≤ adminAccessEnd ((closedExpiry judgedAt row).getD row.expiresAt) :=
    adminAccessEnd_mono hclosed
  by_cases hage : s.clock ≤ row.createdAt + 12 * hour
  · by_cases hend : s.clock ≤ adminAccessEnd ((closedExpiry judgedAt row).getD row.expiresAt)
    · have hidle : row.lastSeenAt + 2 * hour < s.clock := not_le.mp fun hused => hstale ⟨hage, hend, hused⟩
      by_cases hfirst : row.lastSeenAt + 2 * hour < judgedAt
      · have hshut := adminAccessEnd_closed row.expiresAt hfirst
        rw [closedExpiry, if_pos h.superadmin] at hends
        exact Or.inr (lt_of_le_of_lt hends (lt_of_lt_of_le hshut hjudged))
      · refine absurd ⟨row, judgedAt, rfl, ?_, superadminSessionIsIdle_iff.mpr hidle, hage,
          hend.trans (adminAccessEnd_mono closedExpiry_le)⟩ hsettled
        rw [Bool.eq_false_iff, ne_eq, superadminSessionIsIdle_iff]
        exact hfirst
    · exact Or.inr (lt_of_le_of_lt hends (not_le.mp hend))
  · refine Or.inl ?_
    rw [← h.created]
    exact not_le.mp hage

/-- STEP: the request that moves knows what it is to know. -/
theorem Serve.told {s s' : Store} {r r' : Request} (h : Serve s r s' r') (hsettled : ¬Lapses s r)
    (hsound : Sound s) (htold : Told s r) : Told s' r' := by
  cases h with
  | read route => exact ⟨hsound.superadmin, rfl, hsound.seen, le_refl _⟩
  | refuse route row hrefused =>
    refine ⟨?_, ?_⟩
    · rintro ⟨row, judgedAt, now, heq, hfull⟩
      obtain ⟨-, rfl, rfl, rfl, -⟩ := Request.answered.inj heq
      exact Seen.shut_of_refused htold hrefused hfull
    · rintro ⟨row, judgedAt, session, heq⟩
      obtain ⟨-, -, -, -, hanswer⟩ := Request.answered.inj heq
      exact absurd hanswer (by simp)
  | judge route row hlive hstale => exact ⟨htold, le_refl _⟩
  | keep route row hlive hrecent =>
    refine ⟨htold, le_refl _, ?_⟩
    -- used within the hour: there is nothing to close
    have hused := lastSeenNeedsRefresh_eq_false hrecent
    have hnone : closedExpiry s.clock row = none := by
      rw [closedExpiry]
      split
      · rw [closedAdminExpiry, if_pos]
        refine Or.inl ?_
        rw [Bool.not_eq_true', Bool.eq_false_iff, ne_eq, superadminSessionIsIdle_iff, not_lt]
        have hpos : 0 < minute := by decide
        rw [hour]
        omega
      · rfl
    rw [hnone]
    exact Seen.expires htold
  | update route row judgedAt => exact ⟨htold.1, htold.2, hsound.clock⟩
  | commit route row judgedAt stamp =>
    refine ⟨htold.1.later ⟨le_refl _, rfl, min_le_left _ _⟩, htold.2.1, ?_⟩
    change min s.row.expiresAt ((closedExpiry judgedAt row).getD s.row.expiresAt) ≤ _
    rcases closedExpiry judgedAt row with _ | closed
    · exact (min_le_left _ _).trans htold.1.expires
    · exact min_le_right _ _
  | answer route row judgedAt =>
    obtain ⟨hseen, hjudged, hclosed⟩ := htold
    refine ⟨?_, ?_⟩
    · rintro ⟨row, judgedAt, now, heq, -⟩
      obtain ⟨rfl, rfl, rfl, -, hanswer⟩ := Request.answered.inj heq
      exact hseen.shut_of_stale hclosed hjudged hsettled hanswer
    · rintro ⟨row, judgedAt, session, heq⟩
      obtain ⟨rfl, rfl, rfl, -, hanswer⟩ := Request.answered.inj heq
      have hfresh := (superadminSessionIsFresh_iff.mp (superAdminUser_ok hanswer).2).1
      change s.clock ≤ row.createdAt + 12 * hour at hfresh
      rw [hseen.created] at hfresh
      exact hfresh

variable {τ : Type*}

theorem preserved : Preserved settled Sound (fun _ : τ => Told) where
  env _ _ hsound henv := Outside.sound henv hsound
  env_client _ _ _ _ _ htold henv := htold.later (Outside.later henv)
  move _ _ _ _ _ hsound htold hmove :=
    ⟨Serve.sound hmove.2 hsound htold, Serve.told hmove.2 hmove.1 hsound htold⟩
  move_other _ _ _ _ _ _ _ _ _ _ hother hmove := hother.later (Serve.later hmove.2)

/-! ### A request begun once the session is shut -/

/-- The row it read, if any, was shut already: it is not let in. -/
def Late (s : Store) : Request → Prop
  | .waiting _ => True
  | .found _ row | .judged _ row _ | .updating _ row _ _ | .loaded _ row _ =>
    row.createdAt + SUPERADMIN_SESSION_MAX_AGE_HOURS * hour < s.clock ∨ adminAccessEnd row.expiresAt < s.clock
  | .answered route _ _ _ answer => route = .admin → ∃ e, answer = .error e

theorem Late.later {s s' : Store} {r : Request} (h : Late s r) (hlater : Later s s') : Late s' r := by
  rcases r with route | ⟨route, row⟩ | ⟨route, row, judgedAt⟩ | ⟨route, row, judgedAt, stamp⟩ |
    ⟨route, row, judgedAt⟩ | ⟨route, row, judgedAt, now, answer⟩
  · exact trivial
  · exact Or.imp (fun h => h.trans_le hlater.clock) (fun h => h.trans_le hlater.clock) h
  · exact Or.imp (fun h => h.trans_le hlater.clock) (fun h => h.trans_le hlater.clock) h
  · exact Or.imp (fun h => h.trans_le hlater.clock) (fun h => h.trans_le hlater.clock) h
  · exact Or.imp (fun h => h.trans_le hlater.clock) (fun h => h.trans_le hlater.clock) h
  · exact h

/-- STEP: it goes on as shut. -/
theorem Serve.late {s s' : Store} {r r' : Request} (h : Serve s r s' r') (hshut : Shut s) (hlate : Late s r) :
    Late s' r' := by
  cases h with
  | read route => exact hshut
  | refuse route row hrefused => exact fun _ => ⟨_, rfl⟩
  | judge | keep | update | commit => exact hlate
  | answer route row judgedAt =>
    rintro rfl
    rcases hanswer : takes .admin s.clock (loadedSession judgedAt row) with e | session
    · exact ⟨e, rfl⟩
    · obtain ⟨hage, hend, _⟩ := superadminSessionIsFresh_iff.mp (superAdminUser_ok hanswer).2
      rcases hlate with hlate | hlate
      · exact absurd hage (not_le.mpr hlate)
      · exact absurd (hend.trans (adminAccessEnd_mono closedExpiry_le)) (not_le.mpr hlate)

theorem preserved_late (j : τ) :
    Preserved settled (fun s => Sound s ∧ Shut s) (fun i s r => Told s r ∧ (i = j → Late s r)) where
  env _ _ h henv := ⟨Outside.sound henv h.1, h.2.later (Outside.later henv)⟩
  env_client _ _ _ _ _ htold henv :=
    ⟨htold.1.later (Outside.later henv), fun hj => (htold.2 hj).later (Outside.later henv)⟩
  move _ _ _ _ _ h htold hmove :=
    ⟨⟨Serve.sound hmove.2 h.1 htold.1, h.2.later (Serve.later hmove.2)⟩,
      Serve.told hmove.2 hmove.1 h.1 htold.1, fun hj => Serve.late hmove.2 h.2 (htold.2 hj)⟩
  move_other _ _ _ _ _ _ _ _ _ _ hother hmove :=
    ⟨hother.1.later (Serve.later hmove.2), fun hj => (hother.2 hj).later (Serve.later hmove.2)⟩

theorem Later.trans {s s' s'' : Store} (h : Later s s') (h' : Later s' s'') : Later s s'' :=
  ⟨h.clock.trans h'.clock, h'.created.trans h.created, h'.expires.trans h.expires⟩

/-! ### The whole run -/

/-- A superadmin's session just opened, and no request yet. -/
structure Opened (w : World Store Request τ) : Prop where
  superadmin : w.shared.row.isSuperadmin = true
  clock : w.shared.row.createdAt ≤ w.shared.clock
  seen : w.shared.row.lastSeenAt = w.shared.row.createdAt
  expires : w.shared.row.expiresAt = w.shared.row.createdAt + SESSION_TTL_DAYS * day
  waiting : ∀ i, ∃ route, w.client i = .waiting route

theorem Opened.holds {w : World Store Request τ} (h : Opened w) : Holds Sound (fun _ => Told) w := by
  refine ⟨⟨h.superadmin, h.seen.ge, h.clock, h.expires.le, ?_⟩, fun i => ?_⟩
  · rw [h.expires, SUPERADMIN_SESSION_MAX_AGE_HOURS, SUPERADMIN_IDLE_TIMEOUT_HOURS]
    have hpos : 0 < hour := by decide
    omega
  · obtain ⟨route, hwaiting⟩ := h.waiting i
    rw [hwaiting]
    exact trivial

variable [DecidableEq τ]

/-- A CLOSED ACCESS STAYS CLOSED: in every run where the idle timeout falls between no request's two readings
    of the clock, a session an admin route refused for inactivity is let in by none that begins later; its end
    never moves later, by no more than 10 hours earlier in all, and its admin access ends at its max age. -/
theorem stays_closed {w₀ w₁ w₂ : World Store Request τ} (hopened : Opened w₀) (h₁ : Steps settled w₀ w₁)
    (h₂ : Steps settled w₁ w₂) :
    (∀ i j route now, RefusedIdle (w₁.client i) → w₁.client j = .waiting route → ¬Accepted (w₂.client j) now) ∧
      w₂.shared.row.expiresAt ≤ w₁.shared.row.expiresAt ∧
      w₁.shared.row.createdAt + SESSION_TTL_DAYS * day -
          (SUPERADMIN_SESSION_MAX_AGE_HOURS - SUPERADMIN_IDLE_TIMEOUT_HOURS) * hour ≤
        w₂.shared.row.expiresAt ∧
      ∀ i now, Accepted (w₂.client i) now →
        now ≤ w₁.shared.row.createdAt + SUPERADMIN_SESSION_MAX_AGE_HOURS * hour := by
  have hfirst := preserved.steps hopened.holds h₁
  have hlast := preserved.steps hfirst h₂
  have hlater : Later w₁.shared w₂.shared := h₂.of_only.related Later.refl (fun _ _ _ => Later.trans)
    (fun _ _ => Outside.later) fun _ _ _ _ => Serve.later
  refine ⟨fun i j route now hrefused hwaiting haccepted => ?_, hlater.expires, ?_, fun i now haccepted => ?_⟩
  · have htold := hfirst.client i
    have hshut : Shut w₁.shared := by
      obtain ⟨row, judgedAt, now, heq, hfull⟩ := hrefused
      rw [heq] at htold
      exact htold.1 ⟨row, judgedAt, now, rfl, hfull⟩
    have hholds : Holds (fun s => Sound s ∧ Shut s) (fun i s r => Told s r ∧ (i = j → Late s r)) w₁ := by
      refine ⟨⟨hfirst.shared, hshut⟩, fun k => ⟨hfirst.client k, ?_⟩⟩
      rintro rfl
      rw [hwaiting]
      exact trivial
    have hlate := (((preserved_late j).steps hholds h₂).client j).2 rfl
    obtain ⟨row, judgedAt, session, heq⟩ := haccepted
    rw [heq] at hlate
    obtain ⟨e, he⟩ := hlate rfl
    exact absurd he (by simp)
  · rw [← hlater.created]
    exact hlast.shared.shortened
  · have htold := hlast.client i
    rw [← hlater.created]
    obtain ⟨row, judgedAt, session, heq⟩ := haccepted
    rw [heq] at htold
    exact htold.2 ⟨row, judgedAt, session, rfl⟩

/-! ### Two requests -/

/-- A session opened at zero. -/
def opened : SessionRow where
  createdAt := 0
  expiresAt := 30 * day
  lastSeenAt := 0
  revoked := false
  restricted := false
  deactivated := false
  deleted := false
  ageDeclared := true
  termsAccepted := true
  isSuperadmin := true

/-- Two requests on an admin route, and none begun. -/
def twoRequests : World Store Request Bool := ⟨⟨0, opened⟩, two (.waiting .admin) (.waiting .admin)⟩

theorem opened_twoRequests : Opened twoRequests where
  superadmin := rfl
  clock := le_refl _
  seen := rfl
  expires := by decide
  waiting i := ⟨.admin, by cases i <;> rfl⟩

/-- The first request is judged at `judgedAt` and answered at `now`; the second has not begun. -/
def firstAnswered (judgedAt now : ℤ) : World Store Request Bool :=
  ⟨⟨now, refresh judgedAt (closedExpiry judgedAt opened) opened⟩,
    two (.answered .admin opened judgedAt now (takes .admin now (loadedSession judgedAt opened))) (.waiting .admin)⟩

theorem steps_firstAnswered (ok : Store → Request → Prop) {judgedAt now : ℤ} (hpos : 0 ≤ judgedAt)
    (hnow : judgedAt ≤ now) (hlive : sessionState judgedAt opened ≠ .Refused)
    (hstale : lastSeenNeedsRefresh judgedAt 0 = true)
    (hok : ∀ s r, (∀ row judgedAt, r ≠ .loaded .admin row judgedAt) → ok s r)
    (hanswer : ok ⟨now, refresh judgedAt (closedExpiry judgedAt opened) opened⟩ (.loaded .admin opened judgedAt)) :
    Steps (requests.only ok) twoRequests (firstAnswered judgedAt now) := by
  refine .head (.env _ (⟨judgedAt, opened⟩ : Store) (Outside.tick ⟨0, opened⟩ judgedAt hpos)) ?_
  refine .head (.first _ ⟨hok _ _ (by simp), .read _ .admin⟩) ?_
  refine .head (.first _ ⟨hok _ _ (by simp), .judge _ .admin opened hlive hstale⟩) ?_
  refine .head (.first _ ⟨hok _ _ (by simp), .update _ .admin opened judgedAt⟩) ?_
  refine .head (.first _ ⟨hok _ _ (by simp), .commit _ .admin opened judgedAt judgedAt⟩) ?_
  refine .head (.env _ (⟨now, refresh judgedAt (closedExpiry judgedAt opened) opened⟩ : Store)
    (Outside.tick ⟨judgedAt, _⟩ now hnow)) ?_
  exact .single (.first _ ⟨hanswer, .answer _ .admin opened judgedAt⟩)

/-- The second request is answered at once. -/
theorem steps_secondAnswered (ok : Store → Request → Prop) (s : Store) (first : Request)
    (hlive : sessionState s.clock s.row ≠ .Refused) (hrecent : lastSeenNeedsRefresh s.clock s.row.lastSeenAt = false)
    (hok : ∀ s r, (∀ row judgedAt, r ≠ .loaded .admin row judgedAt) → ok s r)
    (hanswer : ok s (.loaded .admin s.row s.clock)) :
    Steps (requests.only ok) ⟨s, two first (.waiting .admin)⟩ ⟨s, two first
      (.answered .admin s.row s.clock s.clock (takes .admin s.clock (loadedSession s.clock s.row)))⟩ :=
  .head (.second _ ⟨hok _ _ (by simp), .read s .admin⟩) <|
    .head (.second _ ⟨hok _ _ (by simp), .keep s .admin s.row hlive hrecent⟩) <|
      .single (.second _ ⟨hanswer, .answer s .admin s.row s.clock⟩)

theorem settled_of_not_loaded (s : Store) (r : Request) (h : ∀ row judgedAt, r ≠ .loaded .admin row judgedAt) :
    ¬Lapses s r := by
  rintro ⟨row, judgedAt, heq, _⟩
  exact h row judgedAt heq

/-- Found idle after three hours, the session is closed: an hour of use later it still is. -/
theorem stays_closed_three : RefusedIdle ((firstAnswered (3 * hour) (3 * hour)).client false) ∧
    ∀ now, ¬Accepted (.answered .admin (firstAnswered (3 * hour) (3 * hour)).shared.row (3 * hour) (3 * hour)
      (takes .admin (3 * hour)
        (loadedSession (3 * hour) (firstAnswered (3 * hour) (3 * hour)).shared.row))) now := by
  have hrefused : RefusedIdle ((firstAnswered (3 * hour) (3 * hour)).client false) :=
    ⟨opened, 3 * hour, 3 * hour, rfl, by decide⟩
  have h₁ : Steps settled twoRequests (firstAnswered (3 * hour) (3 * hour)) :=
    steps_firstAnswered _ (by decide) le_rfl (by decide) (by decide) settled_of_not_loaded (by
      rintro ⟨row, judgedAt, heq, hfirst, hsecond, -⟩
      obtain ⟨-, rfl, rfl⟩ := Request.loaded.inj heq
      exact absurd (hfirst.symm.trans hsecond) (by simp))
  have h₂ : Steps settled (firstAnswered (3 * hour) (3 * hour)) _ :=
    steps_secondAnswered _ _ _ (by decide) (by decide) settled_of_not_loaded (by
      rintro ⟨row, judgedAt, heq, hfirst, hsecond, -⟩
      obtain ⟨-, rfl, rfl⟩ := Request.loaded.inj heq
      exact absurd (hfirst.symm.trans hsecond) (by simp))
  exact ⟨hrefused, fun now =>
    (stays_closed opened_twoRequests h₁ h₂).1 false true .admin now hrefused rfl⟩

/-- Judged two hours after its last use, refused a second later, let in a second after that. -/
theorem closed_reopens :
    ¬∀ (w₀ w₁ w₂ : World Store Request Bool), Opened w₀ → Steps requests w₀ w₁ → Steps requests w₁ w₂ →
      ∀ i j route now, RefusedIdle (w₁.client i) → w₁.client j = .waiting route → ¬Accepted (w₂.client j) now := by
  intro h
  have h₁ : Steps requests twoRequests (firstAnswered (2 * hour) (2 * hour + second)) :=
    .of_only (steps_firstAnswered (fun _ _ => True) (by decide) (by decide) (by decide) (by decide)
      (fun _ _ _ => trivial) trivial)
  have hlater : Step requests (firstAnswered (2 * hour) (2 * hour + second))
      ⟨⟨2 * hour + 2 * second, (firstAnswered (2 * hour) (2 * hour + second)).shared.row⟩,
        (firstAnswered (2 * hour) (2 * hour + second)).client⟩ := .env _ _ (.tick _ _ (by decide))
  have h₂ := Steps.of_only (steps_secondAnswered (fun _ _ => True)
    ⟨2 * hour + 2 * second, (firstAnswered (2 * hour) (2 * hour + second)).shared.row⟩
    ((firstAnswered (2 * hour) (2 * hour + second)).client false) (by decide) (by decide)
    (fun _ _ _ => trivial) trivial)
  refine h _ _ _ opened_twoRequests h₁ (.head hlater h₂) false true .admin (2 * hour + 2 * second)
    ⟨opened, 2 * hour, 2 * hour + second, rfl, by decide⟩ rfl ?_
  exact ⟨_, _, _, rfl⟩

end Home.UserAdmin
