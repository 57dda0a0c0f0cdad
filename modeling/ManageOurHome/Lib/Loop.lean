import Mathlib.Order.Basic

/-! @lib loops | layer:library | family:loops

    A loop is what one turn of it does: it panics, goes on from another state, or breaks with a result. A turn that
    panics gives none, and so does a loop given fewer turns than it takes.

        s ──▶ s' ──▶ s'' ──▶ r       while a variant decreases -/

namespace Loop

universe u v

variable {σ : Type u} {ρ : Type v}

/-- What a turn comes to. -/
inductive Turn (σ : Type u) (ρ : Type v) where
  | again (s : σ)
  | done (r : ρ)
  deriving DecidableEq

/-- At most `fuel` turns from `s`. -/
def run (turn : σ → Option (Turn σ ρ)) : ℕ → σ → Option ρ
  | 0, _ => none
  | fuel + 1, s =>
    match turn s with
    | none => none
    | some (.again s') => run turn fuel s'
    | some (.done r) => some r

/-- The turns from `s` end with `r`. -/
inductive Ends (turn : σ → Option (Turn σ ρ)) : σ → ρ → Prop where
  | done {s : σ} {r : ρ} : turn s = some (.done r) → Ends turn s r
  | again {s t : σ} {r : ρ} : turn s = some (.again t) → Ends turn t r → Ends turn s r

variable {turn : σ → Option (Turn σ ρ)} {s s' : σ} {r r' : ρ} {fuel : ℕ}

theorem run_of_done (h : turn s = some (.done r)) : run turn (fuel + 1) s = some r := by
  rw [run, h]

theorem run_of_again (h : turn s = some (.again s')) : run turn (fuel + 1) s = run turn fuel s' := by
  rw [run, h]

/-- A result is reached by turns. -/
theorem ends_of_run (h : run turn fuel s = some r) : Ends turn s r := by
  induction fuel generalizing s with
  | zero => cases h
  | succ fuel ih =>
    cases hturn : turn s with
    | none =>
      rw [run, hturn] at h
      cases h
    | some t =>
      cases t with
      | again s' => exact .again hturn (ih (run_of_again hturn ▸ h))
      | done r' =>
        rw [run_of_done hturn] at h
        exact .done (Option.some.inj h ▸ hturn)

theorem ends_again_iff (h : turn s = some (.again s')) : Ends turn s r ↔ Ends turn s' r := by
  refine ⟨fun hends => ?_, .again h⟩
  cases hends with
  | done hdone => rw [h] at hdone; cases hdone
  | again hagain hrest =>
    rw [h] at hagain
    cases hagain
    exact hrest

theorem ends_done_iff (h : turn s = some (.done r')) : Ends turn s r ↔ r = r' := by
  refine ⟨fun hends => ?_, fun hr => .done (hr ▸ h)⟩
  cases hends with
  | done hdone => rw [h] at hdone; cases hdone; rfl
  | again hagain _ => rw [h] at hagain; cases hagain

theorem Ends.unique (h : Ends turn s r) (h' : Ends turn s r') : r = r' := by
  induction h with
  | done hdone => exact ((ends_done_iff hdone).mp h').symm
  | again hagain _ ih => exact ih ((ends_again_iff hagain).mp h')

/-- The rule of loops: a turn from a state that keeps the invariant does not panic; it keeps it and decreases the
    variant, or breaks with what is asked. -/
theorem run_total {I : σ → Prop} {Q : ρ → Prop} {V : σ → ℕ}
    (hturn : ∀ s, I s → (∃ s', turn s = some (.again s') ∧ I s' ∧ V s' < V s) ∨
      ∃ r, turn s = some (.done r) ∧ Q r)
    (hs : I s) (hfuel : V s < fuel) : ∃ r, run turn fuel s = some r ∧ Q r := by
  induction fuel generalizing s with
  | zero => exact absurd hfuel (Nat.not_lt_zero _)
  | succ fuel ih =>
    obtain ⟨s', hagain, hs', hlt⟩ | ⟨r, hdone, hr⟩ := hturn s hs
    · rw [run_of_again hagain]
      exact ih hs' (Nat.lt_of_lt_of_le hlt (Nat.le_of_lt_succ hfuel))
    · exact ⟨r, run_of_done hdone, hr⟩

end Loop
