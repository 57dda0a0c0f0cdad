import Mathlib.Algebra.Order.Ring.Nat
import Mathlib.Order.Bounds.Defs
import Mathlib.Tactic.Tauto

/-! @src apps/http_guard/src/limits.rs | layer:model | family:request body

    How slowly a client may send a body: so long without a chunk, so long in all, and past a grace at an average rate.
    Durations are nanoseconds. A body within bounds is told when it breaks one if nothing more arrives.

        12 s, 15 000 bytes at 1 kB/s     ──▶     within, to judge again at 15.000000001 s -/

namespace Home.HttpGuard

structure BodyReadLimits where
  idle : ℕ
  minBytesPerSec : ℕ
  grace : ℕ
  total : ℕ
  deriving DecidableEq

/-- A second, in nanoseconds. -/
def secondNs : ℕ := 1000000000

def BodyReadLimits.PRODUCTION : BodyReadLimits where
  idle := 30 * secondNs
  minBytesPerSec := 1000
  grace := 10 * secondNs
  total := 15 * 60 * secondNs

inductive Breach where
  | Idle
  | TooSlow
  | Total
  deriving DecidableEq

inductive Verdict where
  | Within (recheckAt : ℕ)
  | Breached (breach : Breach)
  deriving DecidableEq

def u64Max : ℕ := 2 ^ 64 - 1

namespace BodyReadLimits

variable (limits : BodyReadLimits)

/-- How long the bytes received keep the average up. -/
def coveredNs (received : ℕ) : ℕ := received * secondNs / max limits.minBytesPerSec 1

/-- Judges a body `elapsed` after its first read, `idleFor` after the last chunk arrived, with `received` bytes so
far. -/
def judge (elapsed idleFor received : ℕ) : Verdict :=
  if limits.total ≤ elapsed then .Breached .Total
  else if limits.idle ≤ idleFor then .Breached .Idle
  else
    let coveredNs := limits.coveredNs received
    if limits.grace ≤ elapsed ∧ coveredNs < elapsed then .Breached .TooSlow
    else
      -- the first nanosecond past what the bytes cover, as a `u64`
      let rateDeadline := max (if coveredNs + 1 ≤ u64Max then coveredNs + 1 else u64Max) limits.grace
      let idleDeadline := elapsed - min idleFor elapsed + limits.idle
      .Within (min (min limits.total idleDeadline) rateDeadline)

/-! ### What the bounds say -/

/-- `received` bytes over `elapsed` are fewer than the rate asks for. -/
def FallsShort (elapsed received : ℕ) : Prop := received * secondNs < max limits.minBytesPerSec 1 * elapsed

/-- A body breaks a bound. -/
def Breaks (elapsed idleFor received : ℕ) : Prop :=
  limits.total ≤ elapsed ∨ limits.idle ≤ idleFor ∨ (limits.grace ≤ elapsed ∧ limits.FallsShort elapsed received)

variable {limits} {elapsed idleFor received recheckAt d : ℕ}

theorem coveredNs_lt_iff : limits.coveredNs received < elapsed ↔ limits.FallsShort elapsed received := by
  have hrate : 0 < max limits.minBytesPerSec 1 := Nat.lt_of_lt_of_le Nat.one_pos (le_max_right _ _)
  rw [coveredNs, Nat.div_lt_iff_lt_mul hrate, FallsShort, mul_comm elapsed]

theorem breached_iff : (∃ breach, limits.judge elapsed idleFor received = .Breached breach) ↔
    limits.Breaks elapsed idleFor received := by
  unfold judge Breaks
  rw [← coveredNs_lt_iff]
  by_cases htotal : limits.total ≤ elapsed
  · rw [if_pos htotal]
    exact iff_of_true ⟨_, rfl⟩ (.inl htotal)
  by_cases hidle : limits.idle ≤ idleFor
  · rw [if_neg htotal, if_pos hidle]
    exact iff_of_true ⟨_, rfl⟩ (.inr (.inl hidle))
  by_cases hslow : limits.grace ≤ elapsed ∧ limits.coveredNs received < elapsed
  · rw [if_neg htotal, if_neg hidle, if_pos hslow]
    exact iff_of_true ⟨_, rfl⟩ (.inr (.inr hslow))
  · rw [if_neg htotal, if_neg hidle, if_neg hslow]
    refine iff_of_false ?_ (by tauto)
    rintro ⟨breach, h⟩
    cases h

/-- A body breaks no bound less for waiting on. -/
theorem Breaks.wait (h : limits.Breaks elapsed idleFor received) (d : ℕ) :
    limits.Breaks (elapsed + d) (idleFor + d) received := by
  rcases h with htotal | hidle | ⟨hgrace, hshort⟩
  · exact .inl (htotal.trans (Nat.le_add_right _ _))
  · exact .inr (.inl (hidle.trans (Nat.le_add_right _ _)))
  · exact .inr (.inr ⟨hgrace.trans (Nat.le_add_right _ _),
      Nat.lt_of_lt_of_le hshort (Nat.mul_le_mul_left _ (Nat.le_add_right _ _))⟩)

/-- What a verdict within bounds announces: not yet broken, and when to judge again. -/
theorem judge_eq_within (h : limits.judge elapsed idleFor received = .Within recheckAt) :
    (elapsed < limits.total ∧ idleFor < limits.idle ∧
        ¬(limits.grace ≤ elapsed ∧ limits.coveredNs received < elapsed)) ∧
      recheckAt = min (min limits.total (elapsed - min idleFor elapsed + limits.idle))
        (max (if limits.coveredNs received + 1 ≤ u64Max then limits.coveredNs received + 1 else u64Max)
          limits.grace) := by
  unfold judge at h
  split at h
  · cases h
  split at h
  · cases h
  dsimp only at h
  split at h
  · cases h
  exact ⟨⟨by omega, by omega, ‹_›⟩, (Verdict.Within.inj h).symm⟩

/-- STEP: the instant announced is the first at which the body, left waiting, breaks a bound. -/
theorem breaks_iff_of_within (htotal : limits.total ≤ u64Max) (hidle : idleFor ≤ elapsed)
    (h : limits.judge elapsed idleFor received = .Within recheckAt) :
    elapsed < recheckAt ∧ ∀ d, limits.Breaks (elapsed + d) (idleFor + d) received ↔ recheckAt ≤ elapsed + d := by
  obtain ⟨⟨hnotTotal, hnotIdle, hnotSlow⟩, rfl⟩ := judge_eq_within h
  constructor
  · split <;> omega
  · intro d
    unfold Breaks
    rw [← coveredNs_lt_iff]
    split <;> omega

/-- A body is judged within bounds as long as it breaks none. -/
theorem within_iff : (∃ later, limits.judge elapsed idleFor received = .Within later) ↔
    ¬ limits.Breaks elapsed idleFor received := by
  rw [← breached_iff]
  cases limits.judge elapsed idleFor received with
  | Within later => exact iff_of_true ⟨later, rfl⟩ (by rintro ⟨breach, h⟩; cases h)
  | Breached breach => exact iff_of_false (by rintro ⟨later, h⟩; cases h) (not_not.mpr ⟨breach, rfl⟩)

end BodyReadLimits

end Home.HttpGuard
