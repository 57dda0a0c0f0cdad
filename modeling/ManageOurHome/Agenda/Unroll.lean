import Mathlib.Data.Finset.Basic
import Mathlib.Data.List.Nodup
import ManageOurHome.Agenda.Clock

/-! @src apps/api/src/agenda/recurrence.rs | layer:model | family:recurrence

    The one unroll. `rrule` walks a rule's wall clocks in order and resolves each to an instant: a
    repeated one to its first pass, a skipped one with the offset before the gap. `occurrencesIn`
    takes them one by one, keeps an instant the first time it comes, counts it under `COUNT`, lists it
    if it lies in the window, and stops at the first one past the window.

        walk      01:30  02:15  03:00  03:45          2026-03-29, every 45 minutes
        instants  00:30Z 01:15Z 01:00Z 01:45Z         02:15 is skipped, and comes after 03:00 -/

namespace Home.Agenda

/-- Cap on the occurrences a call returns. -/
def MAX_OCCURRENCES : ℕ := 1000

def u32Max : ℕ := 2 ^ 32 - 1

/-- The wall clocks `rrule` walks for a rule and an anchor, in order, to their end if they have one. -/
structure Walk where
  wall : ℕ → Option ℤ
  ended : ∀ i, wall i = none → wall (i + 1) = none
  increasing : ∀ i w w', wall i = some w → wall (i + 1) = some w' → w < w'

/-- The walk of a rule whose own `COUNT` is `n`. -/
def Walk.take (walk : Walk) (n : ℕ) : Walk where
  wall i := if i < n then walk.wall i else none
  ended i h := by
    by_cases hi : i + 1 < n
    · rw [if_pos (by omega)] at h
      rw [if_pos hi]
      exact walk.ended i h
    · exact if_neg hi
  increasing i w w' h h' := by
    split at h
    · split at h'
      · exact walk.increasing i w w' h h'
      · exact absurd h' (by simp)
    · exact absurd h (by simp)

variable (paris : Paris)

/-- The iterator over a walk: each wall clock as the instant `rrule` resolves it to. -/
def Walk.instant (walk : Walk) (i : ℕ) : Option ℤ := (walk.wall i).map paris.resolve

/-- The instants produced in the hour right after a skipped hour, the last one seen beside them. -/
structure ProducedAfterAGap where
  seen : Finset ℤ
  latest : Option ℤ

def ProducedAfterAGap.default : ProducedAfterAGap := ⟨∅, none⟩

/-- Whether `occurrence` is produced for the first time. -/
def ProducedAfterAGap.firstTime (p : ProducedAfterAGap) (occurrence : ℤ) : ProducedAfterAGap × Bool :=
  if !paris.followsASkippedHour occurrence then
    -- two hours past the last one seen, no copy can come back
    if p.latest.any fun latest => latest + 2 * hour < occurrence then (⟨∅, none⟩, true)
    else (p, true)
  else
    (⟨insert occurrence p.seen, some (p.latest.elim occurrence fun latest => max latest occurrence)⟩,
      occurrence ∉ p.seen)

/-- What the unroll's loop holds. -/
structure Unrolling where
  producedAfterAGap : ProducedAfterAGap
  distinct : ℕ
  dates : List ℤ

def Unrolling.start : Unrolling := ⟨ProducedAfterAGap.default, 0, []⟩

/-- The unroll's loop, from the `i`-th instant on. `none`: it has not ended within `fuel` turns. -/
def unroll (count : Option ℕ) (after before : ℤ) (next : ℕ → Option ℤ) :
    ℕ → ℕ → Unrolling → Option (List ℤ)
  | 0, _, _ => none
  | fuel + 1, i, s =>
    if s.dates.length < MAX_OCCURRENCES ∧ (count.all fun n => s.distinct < n) then
      match next i with
      | none => some s.dates
      | some occurrence =>
        let (producedAfterAGap, firstTime) := s.producedAfterAGap.firstTime paris occurrence
        if !firstTime then
          unroll count after before next fuel (i + 1) { s with producedAfterAGap }
        else
          let distinct := s.distinct + 1
          let dates :=
            if after ≤ occurrence ∧ occurrence ≤ before then s.dates ++ [occurrence] else s.dates
          if before < occurrence then some dates
          else unroll count after before next fuel (i + 1) ⟨producedAfterAGap, distinct, dates⟩
    else some s.dates

/-- More turns than the loop can take: the walk is past `before` by then. -/
def Walk.turns (walk : Walk) (before : ℤ) : ℕ :=
  match walk.wall 0 with
  | none => 2
  | some w => (before + paris.width - w).toNat + 3

/-- `occurrences_in`, once the rule set is built: its walk taken to the end of the window. -/
def walkOccurrences (count : Option ℕ) (walk : Walk) (after before : ℤ) : List ℤ :=
  (unroll paris count after before (walk.instant paris) (walk.turns paris before) 0
    Unrolling.start).getD []

/-- A walk whose rule has its `COUNT` lifted, if it has one. -/
def Walk.lifted (walk : Walk) (count : Option ℕ) : Walk :=
  if count.isSome then walk.take u32Max else walk

/-- `occurrences_in` on a rule by its walk: `COUNT` is lifted from it, and kept by the unroll. -/
def occurrencesIn (count : Option ℕ) (walk : Walk) (after before : ℤ) : List ℤ :=
  walkOccurrences paris count (walk.lifted count) after before

end Home.Agenda
