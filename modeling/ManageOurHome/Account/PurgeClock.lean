import ManageOurHome.Error
import ManageOurHome.Time

/-! @src apps/api/src/jobs/account_purge.rs, apps/api/src/user_admin/admin.rs, apps/api/src/auth/deactivated.rs |
    layer:model | family:account

    What decides when a deactivated account is purged, and what rewrites it: the deactivation, the warning email,
    the reactivation requests, their refusal. Chrono's calendar is taken as it is: what two years later is.

        deactivated ── 2 years − 30 days ──▶ warned ── 30 days ──▶ purged
                            refused: warned afresh, 30 days at least -/

namespace Home.Account

/-- Chrono, as the purge uses it: two calendar years are 730 days or more. -/
structure Chrono where
  checkedAddMonths : ℤ → ℕ → Option ℤ
  MAX_UTC : ℤ
  two_years : ∀ t later, checkedAddMonths t 24 = some later → t + 730 * day ≤ later

def PURGE_GRACE_DAYS : ℤ := 30

def DEACTIVATION_RETENTION_MONTHS : ℕ := 24

def DEACTIVATION_NOTICE_DAYS : ℤ := 30

/-- The columns of a `users` row the purge reads, and whether a reactivation request awaits a decision. -/
structure PurgeClock where
  deletionRequestedAt : Option ℤ
  deactivatedAt : Option ℤ
  deactivationNoticeSentAt : Option ℤ
  deletedAt : Option ℤ
  reactivationRequested : Bool
  reactivationRefusedAt : Option ℤ
  deriving DecidableEq, Repr

variable (chrono : Chrono)

def deactivationRetentionEnd (deactivatedAt : ℤ) : ℤ :=
  (chrono.checkedAddMonths deactivatedAt DEACTIVATION_RETENTION_MONTHS).getD chrono.MAX_UTC

/-- When an account deactivated becomes purgeable. -/
def deactivationPurgeAt (deactivatedAt : ℤ) (noticeSentAt refusedAt : Option ℤ) : ℤ :=
  let retentionEnd := deactivationRetentionEnd chrono deactivatedAt
  let notice := DEACTIVATION_NOTICE_DAYS * day
  let afterNotice := match noticeSentAt with
    | some sentAt => max retentionEnd (sentAt + notice)
    | none => retentionEnd + notice
  match refusedAt with
  | some refusedAt => max afterNotice (refusedAt + notice)
  | none => afterNotice

/-- What a refusal may rewrite. -/
structure RefusalStamps where
  reactivationRefusedAt : Option ℤ
  deactivationNoticeSentAt : Option ℤ
  deriving DecidableEq, Repr

/-- Only the first refusal since the deactivation counts. -/
def recordRefusal (before : RefusalStamps) (now : ℤ) : RefusalStamps :=
  match before.reactivationRefusedAt with
  | some _ => before
  | none => ⟨some now, none⟩

/-- A pending request holds back the purge: only the first since the deactivation. -/
def suspended (clock : PurgeClock) : Bool := clock.reactivationRequested ∧ clock.reactivationRefusedAt = none

/-- The grace period after a deletion request is over. -/
def requestedDue (now : ℤ) (clock : PurgeClock) : Bool :=
  clock.deletionRequestedAt.any fun at_ => now > at_ + PURGE_GRACE_DAYS * day

/-- The retention of a deactivated account is over. -/
def deactivatedDue (now : ℤ) (clock : PurgeClock) : Bool :=
  !suspended clock ∧ clock.deactivatedAt.any fun at_ =>
    now ≥ deactivationPurgeAt chrono at_ clock.deactivationNoticeSentAt clock.reactivationRefusedAt

def purgeDue (now : ℤ) (clock : PurgeClock) : Bool :=
  if clock.deletedAt.isSome then false else requestedDue now clock ∨ deactivatedDue chrono now clock

def deactivationNoticeDue (now : ℤ) (clock : PurgeClock) : Bool :=
  if clock.deletedAt.isSome ∨ clock.deletionRequestedAt.isSome ∨ clock.deactivationNoticeSentAt.isSome ∨
      suspended clock then false
  else clock.deactivatedAt.any fun at_ =>
    now ≥ deactivationRetentionEnd chrono at_ - DEACTIVATION_NOTICE_DAYS * day

/-! ### What rewrites the row -/

def deactivateUser (now : ℤ) (row : PurgeClock) : Except AppError PurgeClock :=
  if row.deactivatedAt = none ∧ row.deletedAt = none then
    .ok { row with deactivatedAt := some now, deactivationNoticeSentAt := none, reactivationRefusedAt := none }
  else .error .NotFound

def reactivateUser (row : PurgeClock) : Except AppError PurgeClock :=
  if row.deactivatedAt.isSome ∧ row.deletedAt = none then
    .ok { row with
      deactivatedAt := none, deactivationNoticeSentAt := none, reactivationRefusedAt := none
      reactivationRequested := false }
  else .error .NotFound

def requestReactivation (row : PurgeClock) : Except AppError PurgeClock :=
  if row.deactivatedAt.isSome ∧ row.deletedAt = none then
    if row.reactivationRequested then .error (.Conflict "reactivation_already_requested")
    else .ok { row with reactivationRequested := true }
  else .error .Unauthorized

def refuseReactivation (now : ℤ) (row : PurgeClock) : Except AppError PurgeClock :=
  if row.deactivatedAt.isSome ∧ row.deletedAt = none then
    if !row.reactivationRequested then .error .NotFound
    else
      let after := recordRefusal ⟨row.reactivationRefusedAt, row.deactivationNoticeSentAt⟩ now
      .ok { row with
        reactivationRequested := false
        deactivationNoticeSentAt := after.deactivationNoticeSentAt
        reactivationRefusedAt := after.reactivationRefusedAt }
  else .error .NotFound

/-- The warning pass, for one account: the purge date its email announces, if it is due one, and the row once
    the email has gone. -/
def sendDeactivationNotice (now : ℤ) (row : PurgeClock) : Option (ℤ × PurgeClock) :=
  match deactivationNoticeDue chrono now row, row.deactivatedAt with
  | true, some deactivatedAt =>
    some (deactivationPurgeAt chrono deactivatedAt (some now) row.reactivationRefusedAt,
      { row with deactivationNoticeSentAt := some now })
  | _, _ => none

/-- The purge, for one account. -/
def purgeAccount (now : ℤ) (row : PurgeClock) : Option PurgeClock :=
  if purgeDue chrono now row then
    some { row with deletedAt := some now, reactivationRequested := false, reactivationRefusedAt := none }
  else none

end Home.Account
