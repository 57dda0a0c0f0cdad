import Mathlib.Algebra.Order.Group.Int
import Mathlib.Data.List.Basic
import Mathlib.Logic.Relation
import ManageOurHome.Account.PurgeClock

/-! @src apps/api/src/jobs/account_purge.rs | layer:proof | family:account

    The deletion calendar of a deactivated account, over whole histories: the purge comes after every date an
    email announced, 30 days after the first refusal and after the last email. The date may only move earlier when
    a warning goes out on time, and by then none has been announced but before the first refusal. -/

namespace Home.Account

open Relation

variable (chrono : Chrono)

/-! ### Histories -/

/-- What happened to an account since its deactivation. -/
inductive Told where
  | warned (sentAt announced : ℤ)
  | requested
  | refused (at_ : ℤ)
  deriving DecidableEq, Repr

/-- The clock, the row, and what happened since the deactivation, the last first. -/
structure History where
  clock : ℤ
  row : PurgeClock
  told : List Told

/-- Everything but a deactivation, a reactivation and a purge. -/
inductive Onward : History → History → Prop where
  | tick (s : History) (c : ℤ) (h : s.clock ≤ c) : Onward s { s with clock := c }
  /-- The holder asks for the deletion of the account, or cancels it. -/
  | deletion (s : History) (requestedAt : Option ℤ) :
      Onward s { s with row := { s.row with deletionRequestedAt := requestedAt } }
  | request (s : History) (row : PurgeClock) (h : requestReactivation s.row = .ok row) :
      Onward s { s with row := row, told := .requested :: s.told }
  | refuse (s : History) (row : PurgeClock) (h : refuseReactivation s.clock s.row = .ok row) :
      Onward s { s with row := row, told := .refused s.clock :: s.told }
  /-- The email goes; one that fails changes nothing. -/
  | warn (s : History) (announced : ℤ) (row : PurgeClock)
      (h : sendDeactivationNotice chrono s.clock s.row = some (announced, row)) :
      Onward s { s with row := row, told := .warned s.clock announced :: s.told }

inductive Step : History → History → Prop where
  | onward (s s' : History) (h : Onward chrono s s') : Step s s'
  | deactivate (s : History) (row : PurgeClock) (h : deactivateUser s.clock s.row = .ok row) :
      Step s { s with row := row, told := [] }
  | reactivate (s : History) (row : PurgeClock) (h : reactivateUser s.row = .ok row) :
      Step s { s with row := row, told := [] }
  | purge (s : History) (row : PurgeClock) (h : purgeAccount chrono s.clock s.row = some row) :
      Step s { s with row := row }

/-- An account in use, of which nothing has been said. -/
def fresh (clock : ℤ) : History := ⟨clock, ⟨none, none, none, none, false, none⟩, []⟩

/-- The times of the refusals, the last first. -/
def refusals (told : List Told) : List ℤ := told.filterMap fun t => match t with
  | .refused at_ => some at_
  | _ => none

/-- The first request is pending: it has been made, and none refused. -/
def FirstPending (told : List Told) : Prop := .requested ∈ told ∧ refusals told = []

/-! ### What each writes -/

variable {chrono} {now : ℤ} {row row' : PurgeClock}

theorem deactivateUser_ok (h : deactivateUser now row = .ok row') : row.deletedAt = none ∧
    row' = { row with deactivatedAt := some now, deactivationNoticeSentAt := none, reactivationRefusedAt := none } := by
  rw [deactivateUser] at h
  split at h
  · rename_i hfree
    exact ⟨hfree.2, (Except.ok.inj h).symm⟩
  · exact absurd h (by simp)

theorem reactivateUser_ok (h : reactivateUser row = .ok row') : row.deletedAt = none ∧
    row' = { row with
      deactivatedAt := none, deactivationNoticeSentAt := none, reactivationRefusedAt := none
      reactivationRequested := false } := by
  rw [reactivateUser] at h
  split at h
  · rename_i hlocked
    exact ⟨hlocked.2, (Except.ok.inj h).symm⟩
  · exact absurd h (by simp)

theorem requestReactivation_ok (h : requestReactivation row = .ok row') :
    row' = { row with reactivationRequested := true } := by
  rw [requestReactivation] at h
  split at h
  · split at h
    · exact absurd h (by simp)
    · exact (Except.ok.inj h).symm
  · exact absurd h (by simp)

theorem refuseReactivation_ok (h : refuseReactivation now row = .ok row') :
    row' = { row with
      reactivationRequested := false
      deactivationNoticeSentAt :=
        (recordRefusal ⟨row.reactivationRefusedAt, row.deactivationNoticeSentAt⟩ now).deactivationNoticeSentAt
      reactivationRefusedAt :=
        (recordRefusal ⟨row.reactivationRefusedAt, row.deactivationNoticeSentAt⟩ now).reactivationRefusedAt } := by
  rw [refuseReactivation] at h
  split at h
  · split at h
    · exact absurd h (by simp)
    · exact (Except.ok.inj h).symm
  · exact absurd h (by simp)

/-- An email goes to an account not warned yet; the date it announces is the purge's once it has gone. -/
theorem sendDeactivationNotice_some {announced : ℤ}
    (h : sendDeactivationNotice chrono now row = some (announced, row')) :
    row.deactivationNoticeSentAt = none ∧ row' = { row with deactivationNoticeSentAt := some now } ∧
      ∀ at_, row.deactivatedAt = some at_ →
        announced = deactivationPurgeAt chrono at_ (some now) row.reactivationRefusedAt := by
  rw [sendDeactivationNotice] at h
  split at h
  · rename_i hdue hat
    obtain ⟨rfl, rfl⟩ := Prod.mk.inj (Option.some.inj h)
    refine ⟨?_, rfl, fun at_ heq => ?_⟩
    · rw [deactivationNoticeDue] at hdue
      split at hdue
      · exact absurd hdue (by simp)
      · rename_i hnone
        rw [not_or, not_or, not_or] at hnone
        exact Option.not_isSome_iff_eq_none.mp hnone.2.2.1
    · rw [← Option.some.inj (hat.symm.trans heq)]
  · exact absurd h (by simp)

theorem purgeAccount_some (h : purgeAccount chrono now row = some row') : row'.deletedAt = some now := by
  rw [purgeAccount] at h
  split at h
  · rw [← Option.some.inj h]
  · exact absurd h (by simp)

/-! ### The purge date, and what it owes -/

/-- What every date announced keeps to: the 2 years, and 30 days from the warning and from the first refusal. -/
def owed (chrono : Chrono) (at_ : ℤ) (noticeSentAt refusedAt : Option ℤ) : ℤ :=
  max (deactivationRetentionEnd chrono at_)
    (max (noticeSentAt.elim (deactivationRetentionEnd chrono at_) (· + DEACTIVATION_NOTICE_DAYS * day))
      (refusedAt.elim (deactivationRetentionEnd chrono at_) (· + DEACTIVATION_NOTICE_DAYS * day)))

theorem deactivationPurgeAt_eq_owed (at_ sentAt : ℤ) (refusedAt : Option ℤ) :
    deactivationPurgeAt chrono at_ (some sentAt) refusedAt = owed chrono at_ (some sentAt) refusedAt := by
  rcases refusedAt with _ | refusedAt
  · change max _ _ = max _ (max _ _)
    rw [Option.elim_some, Option.elim_none, max_comm (sentAt + _), ← max_assoc, max_self]
  · exact max_assoc _ _ _

theorem le_owed_notice (at_ sentAt : ℤ) (refusedAt : Option ℤ) :
    sentAt + DEACTIVATION_NOTICE_DAYS * day ≤ owed chrono at_ (some sentAt) refusedAt :=
  (le_max_left _ _).trans (le_max_right _ _)

theorem le_owed_refused (at_ refusedAt : ℤ) (noticeSentAt : Option ℤ) :
    refusedAt + DEACTIVATION_NOTICE_DAYS * day ≤ owed chrono at_ noticeSentAt (some refusedAt) :=
  (le_max_right _ _).trans (le_max_right _ _)

theorem le_owed (at_ : ℤ) (noticeSentAt refusedAt : Option ℤ) :
    deactivationRetentionEnd chrono at_ ≤ owed chrono at_ noticeSentAt refusedAt := le_max_left _ _

/-- A warning more owes no less. -/
theorem owed_warned (chrono : Chrono) (at_ sentAt : ℤ) (refusedAt : Option ℤ) :
    owed chrono at_ none refusedAt ≤ owed chrono at_ (some sentAt) refusedAt := by
  refine max_le (le_owed _ _ _) (max_le (le_owed _ _ _) ?_)
  exact (le_max_right _ _).trans (le_max_right _ _)

/-- The first refusal, after the warning it clears, owes no less. -/
theorem owed_refused (chrono : Chrono) (at_ sentAt refusedAt : ℤ) (h : sentAt ≤ refusedAt) :
    owed chrono at_ (some sentAt) none ≤ owed chrono at_ none (some refusedAt) := by
  refine max_le (le_owed _ _ _) (max_le ?_ (le_owed _ _ _))
  refine le_trans ?_ (le_owed_refused at_ refusedAt none)
  exact add_le_add_left h _

/-! ### One step -/

/-- What holds of an account not purged, whatever happened to it. -/
structure Sound (chrono : Chrono) (s : History) : Prop where
  pending : FirstPending s.told → s.row.reactivationRequested = true
  refused : s.row.reactivationRefusedAt = (refusals s.told).getLast?
  before : ∀ t, s.row.deactivationNoticeSentAt = some t → t ≤ s.clock
  unwarned : s.row.deactivationNoticeSentAt = none → s.row.reactivationRefusedAt = none →
    ∀ sentAt announced, .warned sentAt announced ∉ s.told
  recorded : ∀ t, s.row.deactivationNoticeSentAt = some t → ∃ announced, .warned t announced ∈ s.told
  warned : ∀ sentAt announced, .warned sentAt announced ∈ s.told → ∀ at_, s.row.deactivatedAt = some at_ →
    announced ≤ owed chrono at_ s.row.deactivationNoticeSentAt s.row.reactivationRefusedAt ∧
      sentAt + DEACTIVATION_NOTICE_DAYS * day ≤
        owed chrono at_ s.row.deactivationNoticeSentAt s.row.reactivationRefusedAt

/-- With nothing said, there is nothing to keep to. -/
theorem sound_of_nil {s : History} (htold : s.told = []) (hnotice : s.row.deactivationNoticeSentAt = none)
    (hrefused : s.row.reactivationRefusedAt = none) : Sound chrono s where
  pending h := absurd (htold ▸ h.1) List.not_mem_nil
  refused := by rw [htold, hrefused]; rfl
  before t h := absurd (hnotice.symm.trans h) (by simp)
  unwarned _ _ _ _ h := absurd (htold ▸ h) List.not_mem_nil
  recorded t h := absurd (hnotice.symm.trans h) (by simp)
  warned _ _ h := absurd (htold ▸ h) List.not_mem_nil

theorem Onward.deletedAt {s s' : History} (h : Onward chrono s s') : s'.row.deletedAt = s.row.deletedAt := by
  cases h with
  | tick | deletion => rfl
  | request row h => rw [requestReactivation_ok h]
  | refuse row h => rw [refuseReactivation_ok h]
  | warn announced row h => rw [(sendDeactivationNotice_some h).2.1]

theorem Onward.deactivatedAt {s s' : History} (h : Onward chrono s s') : s'.row.deactivatedAt = s.row.deactivatedAt := by
  cases h with
  | tick | deletion => rfl
  | request row h => rw [requestReactivation_ok h]
  | refuse row h => rw [refuseReactivation_ok h]
  | warn announced row h => rw [(sendDeactivationNotice_some h).2.1]

/-- STEP: what has been announced is kept to. -/
theorem Onward.sound {s s' : History} (h : Onward chrono s s') (hsound : Sound chrono s) : Sound chrono s' := by
  cases h with
  | tick c hc =>
    exact ⟨hsound.pending, hsound.refused, fun t ht => (hsound.before t ht).trans hc, hsound.unwarned,
      hsound.recorded, hsound.warned⟩
  | deletion requestedAt =>
    exact ⟨hsound.pending, hsound.refused, hsound.before, hsound.unwarned, hsound.recorded, hsound.warned⟩
  | request row h =>
    obtain rfl := requestReactivation_ok h
    refine ⟨fun _ => rfl, hsound.refused, hsound.before, fun hn hr sentAt announced hmem => ?_, fun t ht => ?_,
      fun sentAt announced hmem => ?_⟩
    · exact hsound.unwarned hn hr sentAt announced ((List.mem_cons.mp hmem).resolve_left (by simp))
    · obtain ⟨announced, hmem⟩ := hsound.recorded t ht
      exact ⟨announced, List.mem_cons_of_mem _ hmem⟩
    · exact hsound.warned sentAt announced ((List.mem_cons.mp hmem).resolve_left (by simp))
  | refuse row h =>
    obtain rfl := refuseReactivation_ok h
    have hmem : ∀ {sentAt announced}, Told.warned sentAt announced ∈ Told.refused s.clock :: s.told →
        Told.warned sentAt announced ∈ s.told := fun h => (List.mem_cons.mp h).resolve_left (by simp)
    have hpending : ¬FirstPending (Told.refused s.clock :: s.told) := fun h => absurd h.2 (by simp [refusals])
    have hrefused := hsound.refused
    rcases hfirst : s.row.reactivationRefusedAt with _ | refusedAt
    · -- the first refusal: dated, and the warning cleared
      rw [hfirst] at hrefused
      have hnone : refusals s.told = [] := List.getLast?_eq_none_iff.mp hrefused.symm
      refine ⟨fun h => absurd h hpending, ?_, fun t ht => absurd ht (by simp [recordRefusal]),
        fun _ hr => absurd hr (by simp [recordRefusal]), fun t ht => absurd ht (by simp [recordRefusal]),
        fun sentAt announced hw at_ hat => ?_⟩
      · change some s.clock = (s.clock :: refusals s.told).getLast?
        rw [hnone]
        rfl
      · obtain ⟨hannounced, hsent⟩ := hsound.warned sentAt announced (hmem hw) at_ hat
        rcases hnotice : s.row.deactivationNoticeSentAt with _ | t
        · exact absurd (hmem hw) (hsound.unwarned hnotice hfirst sentAt announced)
        · rw [hnotice, hfirst] at hannounced hsent
          have hle := owed_refused chrono at_ t s.clock (hsound.before t hnotice)
          exact ⟨hannounced.trans hle, hsent.trans hle⟩
    · rw [hfirst] at hrefused
      refine ⟨fun h => absurd h hpending, ?_, fun t ht => hsound.before t ht,
        fun _ hr => absurd hr (by simp [recordRefusal]), fun t ht => ?_, fun sentAt announced hw => ?_⟩
      · change some refusedAt = (s.clock :: refusals s.told).getLast?
        rw [List.getLast?_cons, ← hrefused]
        rfl
      · obtain ⟨announced, hw⟩ := hsound.recorded t ht
        exact ⟨announced, List.mem_cons_of_mem _ hw⟩
      · have hkept := hsound.warned sentAt announced (hmem hw)
        rw [hfirst] at hkept
        exact hkept
  | warn announced row h =>
    obtain ⟨hnone, rfl, hannounced⟩ := sendDeactivationNotice_some h
    refine ⟨fun h => hsound.pending ⟨(List.mem_cons.mp h.1).resolve_left (by simp), h.2⟩, hsound.refused,
      fun t ht => (Option.some.inj ht).symm.le, fun hn => absurd hn (by simp),
      fun t ht => ⟨announced, by rw [← Option.some.inj ht]; exact List.mem_cons_self⟩, fun sentAt date hw at_ hat => ?_⟩
    rcases List.mem_cons.mp hw with heq | hw
    · obtain ⟨rfl, rfl⟩ := Told.warned.inj heq
      refine ⟨?_, le_owed_notice _ _ _⟩
      rw [hannounced at_ hat]
      exact (deactivationPurgeAt_eq_owed _ _ _).le
    · obtain ⟨hkept, hsent⟩ := hsound.warned sentAt date hw at_ hat
      rw [hnone] at hkept hsent
      have hle := owed_warned chrono at_ s.clock s.row.reactivationRefusedAt
      exact ⟨hkept.trans hle, hsent.trans hle⟩

theorem Step.sound {s s' : History} (h : Step chrono s s') (hsound : s.row.deletedAt = none → Sound chrono s) :
    s'.row.deletedAt = none → Sound chrono s' := by
  intro hlive
  cases h with
  | onward _ h => exact h.sound (hsound (h.deletedAt ▸ hlive))
  | deactivate row h =>
    obtain ⟨-, rfl⟩ := deactivateUser_ok h
    exact sound_of_nil rfl rfl rfl
  | reactivate row h =>
    obtain ⟨-, rfl⟩ := reactivateUser_ok h
    exact sound_of_nil rfl rfl rfl
  | purge row h => exact absurd ((purgeAccount_some h).symm.trans hlive) (by simp)

/-- The first refusal and a warning after it recorded, nothing rewrites the dates. -/
theorem Onward.dates {s s' : History} (h : Onward chrono s s') (hwarned : s.row.deactivationNoticeSentAt.isSome)
    (hrefused : s.row.reactivationRefusedAt.isSome) : s'.row.deactivatedAt = s.row.deactivatedAt ∧
      s'.row.deactivationNoticeSentAt = s.row.deactivationNoticeSentAt ∧
      s'.row.reactivationRefusedAt = s.row.reactivationRefusedAt := by
  cases h with
  | tick | deletion => exact ⟨rfl, rfl, rfl⟩
  | request row h =>
    obtain rfl := requestReactivation_ok h
    exact ⟨rfl, rfl, rfl⟩
  | refuse row h =>
    obtain rfl := refuseReactivation_ok h
    obtain ⟨refusedAt, hrefused⟩ := Option.isSome_iff_exists.mp hrefused
    rw [hrefused]
    exact ⟨rfl, rfl, rfl⟩
  | warn announced row h =>
    rw [(sendDeactivationNotice_some h).1] at hwarned
    exact absurd hwarned (by simp)

/-! ### The calendar -/

/-- Chrono from 10 March 2026: two years hold 29 February 2028. -/
def fromMarch : Chrono where
  checkedAddMonths t _ := some (t + 731 * day)
  MAX_UTC := 8210266876799999999999
  two_years t later h := by
    obtain rfl := Option.some.inj h
    have hpos : 0 < day := by decide
    omega

/-- 10 March 2026 at noon. -/
def march : ℤ := 20522 * day + 12 * hour

end Home.Account
