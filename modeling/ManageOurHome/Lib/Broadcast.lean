import Mathlib.Algebra.Group.Nat.Defs
import Mathlib.Data.List.Basic
import Mathlib.Data.Nat.Log

/-! @lib broadcast | layer:library | family:concurrency

    A broadcast channel as tokio has it: every value sent goes to every receiver, in a ring of so many places. A receiver
    that falls behind loses the oldest of what it had to receive, and is told so once.

        ring of 2   send a b c   ⇒   lagged · b · c -/

namespace Broadcast

variable {α : Type*}

/-- What a receiver has still to receive, and whether it lost some. -/
structure Receiver (α : Type*) where
  queue : List α
  lagged : Bool
  deriving DecidableEq

/-- A receiver that has just subscribed. -/
def Receiver.empty : Receiver α := ⟨[], false⟩

/-- A value is sent. -/
def Receiver.push (ring : ℕ) (r : Receiver α) (x : α) : Receiver α :=
  ⟨(r.queue ++ [x]).drop (r.queue.length + 1 - ring), r.lagged || decide (ring < r.queue.length + 1)⟩

/-- The places of a channel of this capacity. -/
def places (capacity : ℕ) : ℕ := 2 ^ Nat.clog 2 capacity

theorem places_pos (capacity : ℕ) : 0 < places capacity := Nat.two_pow_pos _

variable {ring : ℕ} {r : Receiver α} {x y : α}

theorem mem_push_of (h : y ∈ (r.push ring x).queue) : y ∈ r.queue ∨ y = x := by
  have hmem := List.mem_of_mem_drop h
  rwa [List.mem_append, List.mem_singleton] at hmem

/-- The last value is never the one lost. -/
theorem mem_push (hring : 0 < ring) : x ∈ (r.push ring x).queue := by
  rw [Receiver.push, List.drop_append_of_le_length (by omega)]
  exact List.mem_append_right _ (List.mem_singleton_self x)

end Broadcast
