import Mathlib.Algebra.Order.Group.Int
import Mathlib.Data.List.Infix
import ManageOurHome.Lib.Atomic
import ManageOurHome.Notifications.Push

/-! @src apps/api/src/jobs/scheduled_notifications.rs | layer:proof | family:push

    A device forgotten for its failures has failed for long, as long as no delivery is recorded between the
    moment a pass reads the device's failures and the moment it writes them back with one more. Where one is,
    the delivery is forgotten instead: the failures from before it count on.

        A reads 19 ─▶ B delivers, writes 0 ─▶ A fails, finds 20: forgotten -/

namespace Home.Push

open Atomic

/-! ### Passes over one device -/

/-- What has been recorded of a device. -/
inductive Recorded where
  | delivered
  | failed (at_ : ℤ)
  /-- Forgotten for its failures. -/
  | forgotten (at_ : ℤ)
  deriving DecidableEq, Repr

/-- The clock, the device's failures while it is subscribed, and what has been recorded, the last first. -/
structure Device where
  clock : ℤ
  failures : Option Failures
  history : List Recorded

/-- A pass pushing the device, and where it stands: the failures it read and what had been recorded then. -/
inductive Pass where
  | waiting
  | listed (read : Failures) (seen : List Recorded)
  | answered (read : Failures) (seen : List Recorded) (outcome : PushOutcome)
  | decided (read : Failures) (seen : List Recorded) (outcome : PushOutcome) (now : ℤ)
  | done

/-- What an outcome known at `now` adds to what is recorded. -/
def PushOutcome.recorded (outcome : PushOutcome) (after : DeviceAfter) (now : ℤ) : List Recorded :=
  match outcome with
  | .Delivered => [.delivered]
  | .Gone => []
  | .Failed _ | .Unanswered _ => if after = .Forget then [.forgotten now, .failed now] else [.failed now]

/-- `record_device`'s statement: a `DELETE` or an `UPDATE`, of no row once the device is gone. -/
def recordDevice (outcome : PushOutcome) (after : DeviceAfter) (now : ℤ) (d : Device) : Device :=
  match d.failures with
  | none => d
  | some _ =>
    { d with
      failures := match after with
        | .Forget => none
        | .Keep failures => some failures
      history := outcome.recorded after now ++ d.history }

/-- Time passes; the device is unsubscribed, or moves to another account. -/
inductive Around : Device → Device → Prop where
  | tick (d : Device) (c : ℤ) (h : d.clock ≤ c) : Around d { d with clock := c }
  | unsubscribed (d : Device) : Around d { d with failures := none }
  | moved (d : Device) (read : Failures) (h : d.failures = some read) : Around d { d with failures := some ⟨0, none⟩ }

/-- `push_devices` for one device: the list, the push, then `record_device`, its clock and its statement. -/
inductive PushDevice : Device → Pass → Device → Pass → Prop where
  | list (d : Device) (read : Failures) (h : d.failures = some read) :
      PushDevice d .waiting d (.listed read d.history)
  | answer (d : Device) (read : Failures) (seen : List Recorded) (outcome : PushOutcome) :
      PushDevice d (.listed read seen) d (.answered read seen outcome)
  | decide (d : Device) (read : Failures) (seen : List Recorded) (outcome : PushOutcome) :
      PushDevice d (.answered read seen outcome) d (.decided read seen outcome d.clock)
  | record (d : Device) (read : Failures) (seen : List Recorded) (outcome : PushOutcome) (now : ℤ) :
      PushDevice d (.decided read seen outcome now)
        (recordDevice outcome (deviceAfter outcome read now) now d) .done

def passes : System Device Pass := ⟨Around, PushDevice⟩

/-! ### The failures since the last delivery -/

def Recorded.isFailed : Recorded → Bool
  | .failed _ => true
  | _ => false

/-- The failures in a row, the last first. -/
def run (history : List Recorded) : List Recorded := history.takeWhile Recorded.isFailed

/-- The failures counted are among those in a row, and so is one as old as the date kept. -/
structure Fits (f : Failures) (history : List Recorded) : Prop where
  count : f.consecutiveFailures ≤ (run history).length
  since : ∀ s ∈ f.failingSince, 0 < f.consecutiveFailures ∧ ∃ t, .failed t ∈ run history ∧ t ≤ s

theorem fits_zero (history : List Recorded) : Fits ⟨0, none⟩ history :=
  ⟨Int.natCast_nonneg _, fun _ h => absurd h (by simp)⟩

/-- The rule a device is forgotten by. -/
structure Long (older : List Recorded) (now : ℤ) : Prop where
  count : MAX_CONSECUTIVE_FAILURES ≤ (run older).length
  since : ∃ t, .failed t ∈ run older ∧ t + MIN_FAILING_DAYS * day ≤ now

/-- Every device forgotten was forgotten by the rule. -/
def AllLong (history : List Recorded) : Prop :=
  ∀ newer older now, history = newer ++ .forgotten now :: older → Long older now

theorem AllLong.cons {r : Recorded} {history : List Recorded} (h : AllLong history)
    (hr : ∀ now, r = .forgotten now → Long history now) : AllLong (r :: history) := by
  intro newer older now heq
  rcases newer with _ | ⟨first, newer⟩
  · obtain ⟨rfl, rfl⟩ := List.cons.inj heq
    exact hr now rfl
  · exact h newer older now (List.cons.inj heq).2

theorem run_failed (t : ℤ) (history : List Recorded) : run (.failed t :: history) = .failed t :: run history := rfl

/-- Nothing but failures recorded since. -/
theorem Fits.later {f : Failures} {newer seen : List Recorded} (h : Fits f seen)
    (hnewer : ∀ r ∈ newer, r.isFailed = true) : Fits f (newer ++ seen) := by
  have hrun : run (newer ++ seen) = newer ++ run seen := List.takeWhile_append_of_pos hnewer
  refine ⟨?_, fun s hs => ?_⟩
  · rw [hrun, List.length_append]
    have hcount := h.count
    omega
  · obtain ⟨hpos, t, ht, hle⟩ := h.since s hs
    exact ⟨hpos, t, hrun ▸ List.mem_append_right _ ht, hle⟩

/-- One more failure, known at `now`. -/
theorem Fits.failed {f : Failures} {history : List Recorded} (h : Fits f history) (hpos : 0 ≤ f.consecutiveFailures)
    (now : ℤ) : Fits ⟨saturatingAdd f.consecutiveFailures 1, some (f.failingSince.getD now)⟩
      (.failed now :: history) := by
  have hcount := h.count
  refine ⟨?_, ?_⟩
  · rw [run_failed, List.length_cons]
    change min I32_MAX (f.consecutiveFailures + 1) ≤ _
    omega
  · intro s hs
    obtain rfl := Option.some.inj hs
    refine ⟨by change 0 < min I32_MAX (f.consecutiveFailures + 1); rw [I32_MAX]; omega, ?_⟩
    rcases hsince : f.failingSince with _ | since
    · exact ⟨now, List.mem_cons_self, le_rfl⟩
    · obtain ⟨-, t, ht, hle⟩ := h.since since hsince
      exact ⟨t, List.mem_cons_of_mem _ ht, hle⟩

/-! ### One step -/

def PushOutcome.Fails (outcome : PushOutcome) : Prop := outcome ≠ .Delivered ∧ outcome ≠ .Gone

/-- What is recorded of a failure, and the fate of the device. -/
theorem deviceAfter_fails {outcome : PushOutcome} (h : outcome.Fails) (f : Failures) (now : ℤ) :
    (deviceAfter outcome f now = .Forget ∧ MAX_CONSECUTIVE_FAILURES ≤ saturatingAdd f.consecutiveFailures 1 ∧
        f.failingSince.getD now + MIN_FAILING_DAYS * day ≤ now ∧
        outcome.recorded (deviceAfter outcome f now) now = [.forgotten now, .failed now]) ∨
      (deviceAfter outcome f now =
          .Keep ⟨saturatingAdd f.consecutiveFailures 1, some (f.failingSince.getD now)⟩ ∧
        outcome.recorded (deviceAfter outcome f now) now = [.failed now]) := by
  rcases outcome with _ | _ | e | e
  · exact absurd rfl h.1
  · exact absurd rfl h.2
  all_goals
    rw [deviceAfter]
    split
    · rename_i hlong
      exact Or.inl ⟨rfl, hlong.1, by have := hlong.2; omega, rfl⟩
    · exact Or.inr ⟨rfl, rfl⟩

/-- What holds of the device at any moment. -/
structure Kept (d : Device) : Prop where
  fits : ∀ f, d.failures = some f → Fits f d.history ∧ 0 ≤ f.consecutiveFailures
  gone : ∀ f t, d.failures = some f → .forgotten t ∉ d.history
  long : AllLong d.history

/-- What a pass read, and what had been recorded then. -/
structure Read (d : Device) (read : Failures) (seen : List Recorded) : Prop where
  fits : Fits read seen
  nonneg : 0 ≤ read.consecutiveFailures
  seen : seen <:+ d.history

def Stands (d : Device) : Pass → Prop
  | .waiting | .done => True
  | .listed read seen | .answered read seen _ | .decided read seen _ _ => Read d read seen

/-- A failed push counts on failures that a delivery recorded since has wiped out. -/
def Overtaken (d : Device) (p : Pass) : Prop :=
  ∃ read seen outcome now newer, p = .decided read seen outcome now ∧ outcome.Fails ∧
    0 < read.consecutiveFailures ∧ d.history = newer ++ seen ∧ .delivered ∈ newer

/-- The passes, no failure overtaken by a delivery. -/
abbrev undisturbed : System Device Pass := passes.only fun d p => ¬Overtaken d p

/-- The failures read fit what is recorded when they are written back. -/
theorem Read.fits_now {d : Device} {read f : Failures} {seen : List Recorded} {outcome : PushOutcome} {now : ℤ}
    (h : Read d read seen) (hkept : Kept d) (hf : d.failures = some f) (hfails : outcome.Fails)
    (hclear : ¬Overtaken d (.decided read seen outcome now)) : Fits read d.history := by
  obtain ⟨newer, hnewer⟩ := h.seen
  rcases h.nonneg.eq_or_lt with hzero | hpos
  · have hnone : read.failingSince = none := by
      rcases hsince : read.failingSince with _ | since
      · rfl
      · exact absurd (h.fits.since since hsince).1 (by omega)
    have hread : read = ⟨0, none⟩ := by
      rcases read with ⟨count, since⟩
      dsimp only at hzero hnone
      rw [← hzero, hnone]
    rw [hread]
    exact fits_zero _
  · rw [← hnewer]
    refine h.fits.later fun r hr => ?_
    rcases r with _ | t | t
    · exact absurd ⟨read, seen, outcome, now, newer, rfl, hfails, hpos, hnewer.symm, hr⟩ hclear
    · rfl
    · exact absurd (hnewer ▸ List.mem_append_left _ hr) (hkept.gone f t hf)

/-- A statement on the device leaves what had been recorded. -/
theorem suffix_recordDevice (outcome : PushOutcome) (after : DeviceAfter) (now : ℤ) (d : Device) :
    d.history <:+ (recordDevice outcome after now d).history := by
  rw [recordDevice.eq_def]
  split
  · exact List.suffix_refl _
  · exact List.suffix_append _ _

theorem PushDevice.suffix {d d' : Device} {p p' : Pass} (h : PushDevice d p d' p') : d.history <:+ d'.history := by
  cases h with
  | list | answer | decide => exact List.suffix_refl _
  | record read seen outcome now => exact suffix_recordDevice _ _ _ _

/-- STEP: `record_device` keeps what holds of the device. -/
theorem kept_recordDevice {d : Device} {read : Failures} {seen : List Recorded} {outcome : PushOutcome} {now : ℤ}
    (hkept : Kept d) (hread : Read d read seen) (hclear : ¬Overtaken d (.decided read seen outcome now)) :
    Kept (recordDevice outcome (deviceAfter outcome read now) now d) := by
  rw [recordDevice.eq_def]
  split
  · exact hkept
  · rename_i f hf
    by_cases hfails : outcome.Fails
    · have hfits := (hread.fits_now hkept hf hfails hclear).failed hread.nonneg now
      have hfailed : AllLong (.failed now :: d.history) := hkept.long.cons fun _ h => absurd h (by simp)
      rcases deviceAfter_fails hfails read now with ⟨hafter, hcount, hsince, hrecorded⟩ | ⟨hafter, hrecorded⟩
      · rw [hrecorded, hafter]
        refine ⟨fun _ h => absurd h (by simp), fun _ _ h => absurd h (by simp), ?_⟩
        refine hfailed.cons fun t ht => ?_
        obtain rfl := Recorded.forgotten.inj ht
        refine ⟨hcount.trans hfits.count, ?_⟩
        obtain ⟨-, t, ht, hle⟩ := hfits.since _ rfl
        exact ⟨t, ht, by omega⟩
      · rw [hrecorded, hafter]
        refine ⟨fun g hg => ?_, fun g t hg => ?_, hfailed⟩
        · obtain rfl := Option.some.inj hg
          refine ⟨hfits, ?_⟩
          have hpos := hread.nonneg
          change 0 ≤ min I32_MAX (read.consecutiveFailures + 1)
          rw [I32_MAX]
          omega
        · exact List.not_mem_cons_of_ne_of_not_mem (by simp) (hkept.gone f t hf)
    · rcases outcome with _ | _ | e | e
      · refine ⟨fun g hg => ?_, fun g t hg => ?_, hkept.long.cons fun _ h => absurd h (by simp)⟩
        · obtain rfl := Option.some.inj hg
          exact ⟨fits_zero _, le_rfl⟩
        · exact List.not_mem_cons_of_ne_of_not_mem (by simp) (hkept.gone f t hf)
      · exact ⟨fun _ h => absurd h (by simp [deviceAfter]), fun _ _ h => absurd h (by simp [deviceAfter]), hkept.long⟩
      all_goals exact absurd ⟨by simp, by simp⟩ hfails

theorem Stands.later {d d' : Device} {p : Pass} (h : Stands d p) (hsuffix : d.history <:+ d'.history) :
    Stands d' p := by
  rcases p with _ | ⟨read, seen⟩ | ⟨read, seen, outcome⟩ | ⟨read, seen, outcome, now⟩ | _
  · exact trivial
  · exact ⟨Read.fits h, Read.nonneg h, (Read.seen h).trans hsuffix⟩
  · exact ⟨Read.fits h, Read.nonneg h, (Read.seen h).trans hsuffix⟩
  · exact ⟨Read.fits h, Read.nonneg h, (Read.seen h).trans hsuffix⟩
  · exact trivial

theorem Around.history {d d' : Device} (h : Around d d') : d'.history = d.history := by
  cases h with
  | tick | unsubscribed | moved => rfl

theorem Around.kept {d d' : Device} (h : Around d d') (hkept : Kept d) : Kept d' := by
  cases h with
  | tick c hc => exact ⟨hkept.fits, hkept.gone, hkept.long⟩
  | unsubscribed => exact ⟨fun _ h => absurd h (by simp), fun _ _ h => absurd h (by simp), hkept.long⟩
  | moved read hread =>
    refine ⟨fun f hf => ?_, fun f t _ => hkept.gone read t hread, hkept.long⟩
    obtain rfl := Option.some.inj hf
    exact ⟨fits_zero _, le_rfl⟩

theorem PushDevice.kept {d d' : Device} {p p' : Pass} (h : PushDevice d p d' p') (hclear : ¬Overtaken d p)
    (hkept : Kept d) (hstands : Stands d p) : Kept d' ∧ Stands d' p' := by
  cases h with
  | list read hread =>
    exact ⟨hkept, (hkept.fits read hread).1, (hkept.fits read hread).2, List.suffix_refl _⟩
  | answer => exact ⟨hkept, hstands⟩
  | decide => exact ⟨hkept, hstands⟩
  | record read seen outcome now => exact ⟨kept_recordDevice hkept hstands hclear, trivial⟩

variable {τ : Type*}

theorem preserved : Preserved undisturbed Kept (fun _ : τ => Stands) where
  env _ _ hkept henv := Around.kept henv hkept
  env_client _ _ _ _ _ hstands henv := hstands.later (Around.history henv ▸ List.suffix_refl _)
  move _ _ _ _ _ hkept hstands hmove := PushDevice.kept hmove.2 hmove.1 hkept hstands
  move_other _ _ _ _ _ _ _ _ _ _ hother hmove := hother.later (PushDevice.suffix hmove.2)

/-! ### The whole run -/

/-- A device just subscribed, and no pass yet. -/
structure Subscribed (w : World Device Pass τ) : Prop where
  failures : w.shared.failures = some ⟨0, none⟩
  history : w.shared.history = []
  waiting : ∀ i, w.client i = .waiting

variable [DecidableEq τ]

/-- FORGOTTEN AFTER FAILING FOR LONG: in every run where no failure is overtaken by a delivery, a device is
    forgotten for its failures after as many in a row as the rule asks, with no delivery recorded between them,
    one of them as old as it asks; and the failures counted are failures since the last delivery recorded. -/
theorem forgotten_after_long {w₀ w : World Device Pass τ} (hnew : Subscribed w₀) (hrun : Steps undisturbed w₀ w) :
    (∀ newer older now, w.shared.history = newer ++ .forgotten now :: older →
      MAX_CONSECUTIVE_FAILURES ≤ (run older).length ∧
        ∃ t, .failed t ∈ run older ∧ t + MIN_FAILING_DAYS * day ≤ now) ∧
      ∀ f, w.shared.failures = some f → f.consecutiveFailures ≤ (run w.shared.history).length := by
  have hholds : Holds Kept (fun _ => Stands) w₀ := by
    refine ⟨⟨fun f hf => ?_, fun f t _ => ?_, fun newer older now h => ?_⟩, fun i => ?_⟩
    · obtain rfl := Option.some.inj (hnew.failures.symm.trans hf)
      exact ⟨fits_zero _, le_rfl⟩
    · rw [hnew.history]
      exact List.not_mem_nil
    · rw [hnew.history] at h
      exact absurd h (by simp)
    · rw [hnew.waiting]
      exact trivial
  have hlast := (preserved.steps hholds hrun).shared
  refine ⟨fun newer older now h => ?_, fun f hf => (hlast.fits f hf).1.count⟩
  obtain ⟨hcount, hsince⟩ := hlast.long newer older now h
  exact ⟨hcount, hsince⟩

/-! ### Passes one after the other -/

theorem not_overtaken_at_once (d : Device) (read : Failures) (outcome : PushOutcome) (now : ℤ) :
    ¬Overtaken d (.decided read d.history outcome now) := by
  rintro ⟨read, seen, outcome, now, newer, heq, -, -, hhistory, hdelivered⟩
  obtain ⟨-, rfl, -, -⟩ := Pass.decided.inj heq
  rw [List.self_eq_append_left.mp hhistory] at hdelivered
  exact absurd hdelivered List.not_mem_nil

theorem not_overtaken_before {d : Device} {p : Pass} (h : ∀ read seen outcome now, p ≠ .decided read seen outcome now) :
    ¬Overtaken d p := by
  rintro ⟨read, seen, outcome, now, newer, heq, -⟩
  exact h read seen outcome now heq

/-- A pass from its reading to its record, with nothing in between. -/
theorem steps_push (c : τ → Pass) (d : Device) (read : Failures) (hread : d.failures = some read) (i : τ)
    (hwaiting : c i = .waiting) (outcome : PushOutcome) :
    Steps undisturbed ⟨d, c⟩ ⟨recordDevice outcome (deviceAfter outcome read d.clock) d.clock d,
      Function.update c i .done⟩ := by
  have hlist : undisturbed.move d .waiting d (.listed read d.history) :=
    ⟨not_overtaken_before (by simp), .list d read hread⟩
  have hanswer : undisturbed.move d (.listed read d.history) d (.answered read d.history outcome) :=
    ⟨not_overtaken_before (by simp), .answer d read d.history outcome⟩
  have hdecide : undisturbed.move d (.answered read d.history outcome) d
      (.decided read d.history outcome d.clock) :=
    ⟨not_overtaken_before (by simp), .decide d read d.history outcome⟩
  have hrecord : undisturbed.move d (.decided read d.history outcome d.clock) _ .done :=
    ⟨not_overtaken_at_once d read outcome d.clock, .record d read d.history outcome d.clock⟩
  have hlast := Step.of_client (Function.update_self i (Pass.decided read d.history outcome d.clock) c) hrecord
  rw [Function.update_idem] at hlast
  refine .head (.of_client hwaiting hlist) (.head (.of_client (Function.update_self ..) hanswer) ?_)
  rw [Function.update_idem]
  refine .head (.of_client (Function.update_self ..) hdecide) ?_
  rw [Function.update_idem]
  exact .single hlast

/-- After `n` failures at zero. -/
def failing (n : ℕ) : Device where
  clock := 0
  failures := some ⟨n, if n = 0 then none else some 0⟩
  history := List.replicate n (.failed 0)

def subscribed : World Device Pass ℕ := ⟨failing 0, fun _ => .waiting⟩

theorem subscribed_subscribed : Subscribed subscribed := ⟨rfl, rfl, fun _ => rfl⟩

/-- One failure after the other. -/
theorem steps_failing (n : ℕ) (hn : n ≤ 19) : ∃ c : ℕ → Pass, Steps undisturbed subscribed ⟨failing n, c⟩ ∧
    ∀ i, n ≤ i → c i = .waiting := by
  induction n with
  | zero => exact ⟨_, .refl, fun _ _ => rfl⟩
  | succ n ih =>
    obtain ⟨c, hsteps, hwaiting⟩ := ih (by omega)
    have hpush := steps_push c (failing n) _ rfl n (hwaiting n le_rfl) (.Failed [])
    have hnext : recordDevice (.Failed []) (deviceAfter (.Failed [])
        ⟨n, if n = 0 then none else some 0⟩ 0) 0 (failing n) = failing (n + 1) := by
      have hsince : (if n = 0 then none else some (0 : ℤ)).getD 0 = 0 := by
        split
        all_goals rfl
      have hcount : saturatingAdd (n : ℤ) 1 = (n + 1 : ℕ) := by
        rw [saturatingAdd, I32_MAX]
        omega
      rw [deviceAfter]
      dsimp only
      rw [hsince, hcount, if_neg fun hlong => absurd hlong.2 (by decide)]
      simp [recordDevice, failing, PushOutcome.recorded, List.replicate_succ]
    exact ⟨_, hsteps.trans (hnext ▸ hpush), fun i hi => by
      rw [Function.update_of_ne (by omega)]
      exact hwaiting i (by omega)⟩

/-- Eight days after the first of nineteen failures. -/
def eightDays : Device := { failing 19 with clock := 8 * day }

theorem steps_eightDays : ∃ c : ℕ → Pass, Steps undisturbed subscribed ⟨eightDays, c⟩ ∧ ∀ i, 19 ≤ i → c i = .waiting := by
  obtain ⟨c, hsteps, hwaiting⟩ := steps_failing 19 le_rfl
  have htick : Step undisturbed ⟨failing 19, c⟩ ⟨eightDays, c⟩ :=
    .env _ eightDays (.tick (failing 19) (8 * day) (by decide))
  exact ⟨c, hsteps.tail htick, hwaiting⟩

/-- The twentieth failure in a row, eight days after the first. -/
theorem forgotten_after_long_twenty : ∃ w : World Device Pass ℕ, w.shared.failures = none ∧
    MAX_CONSECUTIVE_FAILURES ≤ (run (.failed (8 * day) :: eightDays.history)).length := by
  obtain ⟨c, hsteps, hwaiting⟩ := steps_eightDays
  have hrun := hsteps.trans (steps_push c eightDays ⟨19, some 0⟩ rfl 19 (hwaiting 19 le_rfl) (.Failed []))
  have hlong := (forgotten_after_long subscribed_subscribed hrun).1 [] (.failed (8 * day) :: eightDays.history)
    (8 * day) rfl
  exact ⟨⟨recordDevice (.Failed []) (deviceAfter (.Failed []) ⟨19, some 0⟩ (8 * day)) (8 * day) eightDays,
    Function.update c 19 .done⟩, rfl, hlong.1⟩

/-- Nineteen failures, a delivery by one pass while another fails: forgotten. -/
theorem forgotten_too_soon :
    ¬∀ (w₀ w : World Device Pass ℕ), Subscribed w₀ → Steps passes w₀ w →
      ∀ newer older now, w.shared.history = newer ++ .forgotten now :: older →
        MAX_CONSECUTIVE_FAILURES ≤ (run older).length := by
  intro h
  obtain ⟨c, hsteps, hwaiting⟩ := steps_eightDays
  let read : Failures := ⟨19, some 0⟩
  have hlist : passes.move eightDays .waiting eightDays (.listed read eightDays.history) := .list _ _ rfl
  have hdelivered := steps_push (Function.update c 19 (.listed read eightDays.history)) eightDays read rfl 20
    (by rw [Function.update_of_ne (by decide)]; exact hwaiting 20 (by decide)) .Delivered
  let d := recordDevice .Delivered (deviceAfter .Delivered read eightDays.clock) eightDays.clock eightDays
  have hanswer : passes.move d (.listed read eightDays.history) d (.answered read eightDays.history (.Failed [])) :=
    .answer _ _ _ _
  have hdecide : passes.move d (.answered read eightDays.history (.Failed [])) d
      (.decided read eightDays.history (.Failed []) (8 * day)) := .decide d _ _ _
  have hrecord : passes.move d (.decided read eightDays.history (.Failed []) (8 * day))
      (recordDevice (.Failed []) (deviceAfter (.Failed []) read (8 * day)) (8 * day) d) .done := .record _ _ _ _ _
  have hread : Steps passes subscribed _ := hsteps.of_only.tail (.of_client (hwaiting 19 le_rfl) hlist)
  have hfirst := hread.trans hdelivered.of_only
  have hstill : Function.update (Function.update c 19 (.listed read eightDays.history)) 20 .done 19 =
      .listed read eightDays.history := by rw [Function.update_of_ne (by decide), Function.update_self]
  have hanswered := hfirst.tail (.of_client hstill hanswer)
  have hdecided := hanswered.tail (.of_client (Function.update_self ..) hdecide)
  have hrun := hdecided.tail (.of_client (Function.update_self ..) hrecord)
  have hshort := h subscribed _ subscribed_subscribed hrun [] (.failed (8 * day) :: .delivered :: eightDays.history)
  exact absurd (hshort (8 * day) rfl) (by decide)

end Home.Push
