import ManageOurHome.Text
import ManageOurHome.Time

/-! @src apps/api/src/notifications/push.rs | layer:model | family:push

    What a device's row remembers of the pushes sent to it. Its failures in a row, and since when: past both
    bounds the device is forgotten. And the pushes it has not shown yet: how many, of which kind, until when. A
    push carries nothing, so the device asks which kind it got.

        counted ─▶ sent ─▶ delivered · failed · gone · unanswered
                     └──▶ received: the device asks what to show -/

namespace Home.Push

def I32_MAX : ℤ := 2147483647

/-- `i32::saturating_add`, of a number that is not negative. -/
def saturatingAdd (n m : ℤ) : ℤ := min I32_MAX (n + m)

/-! ### The fate of a device -/

/-- What a push service's answer means for the subscription. -/
inductive PushOutcome where
  | Delivered
  | Gone
  | Failed (error : Text)
  | Unanswered (error : Text)
  deriving DecidableEq

def MAX_CONSECUTIVE_FAILURES : ℤ := 20

def MIN_FAILING_DAYS : ℤ := 7

/-- The failures of a device in a row, and the first of them. -/
structure Failures where
  consecutiveFailures : ℤ
  failingSince : Option ℤ
  deriving DecidableEq, Repr

inductive DeviceAfter where
  | Forget
  | Keep (failures : Failures)
  deriving DecidableEq, Repr

/-- The device's fate after `outcome`, from its failures in a row so far. -/
def deviceAfter (outcome : PushOutcome) (failures : Failures) (now : ℤ) : DeviceAfter :=
  match outcome with
  | .Delivered => .Keep ⟨0, none⟩
  | .Gone => .Forget
  | .Failed _ | .Unanswered _ =>
    let count := saturatingAdd failures.consecutiveFailures 1
    let since := failures.failingSince.getD now
    if count ≥ MAX_CONSECUTIVE_FAILURES ∧ now - since ≥ MIN_FAILING_DAYS * day then .Forget
    else .Keep ⟨count, some since⟩

/-! ### The pushes pending -/

inductive PushKind where
  | AgendaReminder | BudgetAlert | StockExpiry
  deriving DecidableEq, Repr

inductive PendingKind where
  | Only (kind : PushKind)
  | Mixed
  deriving DecidableEq, Repr

def PushKind.asStr : PushKind → Text
  | .AgendaReminder => "agenda_reminder".toList
  | .BudgetAlert => "budget_alert".toList
  | .StockExpiry => "stock_expiry".toList

def PushKind.parse (raw : Text) : Option PushKind :=
  [.AgendaReminder, .BudgetAlert, .StockExpiry].find? fun kind => PushKind.asStr kind = raw

def PendingKind.asStr : PendingKind → Text
  | .Only kind => kind.asStr
  | .Mixed => "mixed".toList

def PendingKind.parse (raw : Text) : Option PendingKind :=
  if raw = "mixed".toList then some .Mixed else (PushKind.parse raw).map .Only

/-- The pushes sent to a device that it has not shown yet. -/
structure Pending where
  kind : Option PendingKind
  count : ℤ
  until_ : Option ℤ
  deriving DecidableEq, Repr

def Pending.default : Pending := ⟨none, 0, none⟩

/-- `pending_push_kind`, `pending_pushes` and `pending_until`. -/
structure Columns where
  pendingPushKind : Option Text
  pendingPushes : ℤ
  pendingUntil : Option ℤ
  deriving DecidableEq, Repr

def Pending.fromColumns (c : Columns) : Pending :=
  if c.pendingPushes ≤ 0 then .default
  else ⟨some ((c.pendingPushKind.bind PendingKind.parse).getD .Mixed), c.pendingPushes, c.pendingUntil⟩

/-- `write_pending`. -/
def Pending.write (p : Pending) : Columns := ⟨p.kind.map PendingKind.asStr, p.count, p.until_⟩

/-- Pushes may still arrive. -/
def Pending.live (p : Pending) (now : ℤ) : Bool := p.count > 0 ∧ p.until_.any (· > now)

/-- Once a push of `kind`, held `ttlSecs` by the push service, is about to be sent at `now`. -/
def pendingAfterPush (pending : Pending) (kind : PushKind) (now ttlSecs : ℤ) : Pending :=
  let until_ := now + ttlSecs * second
  if !pending.live now then ⟨some (.Only kind), 1, some until_⟩
  else
    { kind := some (if pending.kind = some (.Only kind) then .Only kind else .Mixed)
      count := saturatingAdd pending.count 1
      until_ := some (pending.until_.elim until_ (max · until_)) }

/-- Once a push counted was refused by the push service, or never sent. -/
def pendingAfterFailure (pending : Pending) : Pending :=
  let count := max (pending.count - 1) 0
  if count = 0 then .default else { pending with count := count }

/-- Once a push counted got no answer from the push service. -/
def pendingAfterUnanswered (pending : Pending) : Pending :=
  if pending.count ≤ 0 then .default else { pending with kind := some .Mixed }

/-- What a device shows on a push received at `now`, and what is then pending. -/
def pendingOnReceipt (pending : Pending) (now : ℤ) : Option PushKind × Pending :=
  if !pending.live now then (none, .default)
  else
    let shown := match pending.kind with
      | some (.Only kind) => some kind
      | _ => none
    let count := pending.count - 1
    (shown, if count = 0 then .default else { pending with count := count })

end Home.Push
