import Mathlib.Init

/-! @src apps/api/src/error.rs | layer:model | family:errors

    What the API answers when it does not do what it is asked. -/

namespace Home

/-- `AppError`, as far as the handlers modelled raise it. -/
inductive AppError where
  | NotFound
  | Unauthorized
  | Forbidden
  | AccountDeactivated
  | AgeNotDeclared
  | TermsNotAccepted
  | Gone
  | BadRequest (code : String)
  | Conflict (code : String)
  | Unprocessable (code : String)
  deriving DecidableEq, Repr

/-! ### What a handler answers when every check passes -/

section

variable {ε α β : Type}

theorem bind_eq_ok {x : Except ε α} {f : α → Except ε β} {b : β} : x >>= f = .ok b ↔ ∃ a, x = .ok a ∧ f a = .ok b := by
  rcases x with e | a
  · exact iff_of_false (by simp [bind, Except.bind]) (by simp)
  · simp [bind, Except.bind]

theorem throw_ne_ok {e : ε} {a : α} : (throw e : Except ε α) ≠ .ok a := by
  simp [throw, throwThe, MonadExceptOf.throw]

theorem guard_eq_ok {c : Prop} [Decidable c] {e : ε} {f : PUnit → Except ε α} {x : Except ε α} {a : α} :
    (if c then (throw e >>= f) else x) = .ok a ↔ ¬c ∧ x = .ok a := by
  split
  · rename_i hc
    refine iff_of_false (fun h => ?_) fun h => h.1 hc
    obtain ⟨_, hthrow, -⟩ := bind_eq_ok.mp h
    exact throw_ne_ok hthrow
  · rename_i hc
    exact (and_iff_right hc).symm

end

end Home
