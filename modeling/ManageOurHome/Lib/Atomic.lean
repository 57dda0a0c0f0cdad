import Mathlib.Logic.Function.Basic
import Mathlib.Logic.Relation

/-! @lib atomic steps | layer:library | family:concurrency

    Clients on one shared value. A client's step reads and writes the value at once, and moves the client on;
    between two of its steps anything may happen: another client's step, or one of the environment's.

    What holds of the value (`G`) and of each client (`L`) is carried through every interleaving by
    `Preserved`: nothing is asked about two clients but that a step of one keeps what holds of the other. -/

namespace Atomic

open Relation

/-- What the environment does to the shared value, and what a client does to it and to itself. -/
structure System (σ ℓ : Type*) where
  env : σ → σ → Prop
  move : σ → ℓ → σ → ℓ → Prop

/-- The same system, a client moving only where `ok` lets it. -/
def System.only {σ ℓ : Type*} (sys : System σ ℓ) (ok : σ → ℓ → Prop) : System σ ℓ where
  env := sys.env
  move s l s' l' := ok s l ∧ sys.move s l s' l'

/-- The shared value, and each client by its name. -/
structure World (σ ℓ τ : Type*) where
  shared : σ
  client : τ → ℓ

variable {σ ℓ τ : Type*} [DecidableEq τ] {sys : System σ ℓ} {w w' : World σ ℓ τ}

inductive Step (sys : System σ ℓ) : World σ ℓ τ → World σ ℓ τ → Prop where
  | env (w : World σ ℓ τ) (s : σ) (h : sys.env w.shared s) : Step sys w { w with shared := s }
  | move (w : World σ ℓ τ) (i : τ) (s : σ) (l : ℓ) (h : sys.move w.shared (w.client i) s l) :
      Step sys w ⟨s, Function.update w.client i l⟩

/-- Any number of steps. -/
abbrev Steps (sys : System σ ℓ) : World σ ℓ τ → World σ ℓ τ → Prop := ReflTransGen (Step sys)

/-- What is to prove of one step. -/
structure Preserved (sys : System σ ℓ) (G : σ → Prop) (L : τ → σ → ℓ → Prop) : Prop where
  env : ∀ s s', G s → sys.env s s' → G s'
  env_client : ∀ i s s' l, G s → L i s l → sys.env s s' → L i s' l
  move : ∀ i s l s' l', G s → L i s l → sys.move s l s' l' → G s' ∧ L i s' l'
  move_other : ∀ i j s l s' l' m, j ≠ i → G s → L i s l → L j s m → sys.move s l s' l' → L j s' m

/-- What holds at every point of an interleaving. -/
structure Holds (G : σ → Prop) (L : τ → σ → ℓ → Prop) (w : World σ ℓ τ) : Prop where
  shared : G w.shared
  client : ∀ i, L i w.shared (w.client i)

variable {G : σ → Prop} {L : τ → σ → ℓ → Prop}

/-- STEP: what is preserved holds on. -/
theorem Preserved.step (p : Preserved sys G L) (h : Holds G L w) (hstep : Step sys w w') : Holds G L w' := by
  cases hstep with
  | env s henv =>
    exact ⟨p.env _ s h.shared henv, fun i => p.env_client i _ s _ h.shared (h.client i) henv⟩
  | move i s l hmove =>
    obtain ⟨hshared, hclient⟩ := p.move i _ _ s l h.shared (h.client i) hmove
    refine ⟨hshared, fun j => ?_⟩
    by_cases hj : j = i
    · subst hj
      change L j s (Function.update w.client j l j)
      rwa [Function.update_self]
    · change L j s (Function.update w.client i l j)
      rw [Function.update_of_ne hj]
      exact p.move_other i j _ _ s l _ hj h.shared (h.client i) (h.client j) hmove

/-- RUN: what is preserved holds on, from wherever it holds. -/
theorem Preserved.steps (p : Preserved sys G L) (h : Holds G L w) (hrun : Steps sys w w') : Holds G L w' := by
  induction hrun with
  | refl => exact h
  | tail _ hstep ih => exact p.step ih hstep

/-- What every step does to the shared value, a run does. -/
theorem Steps.related {R : σ → σ → Prop} (hrefl : ∀ s, R s s) (htrans : ∀ s s' s'', R s s' → R s' s'' → R s s'')
    (henv : ∀ s s', sys.env s s' → R s s') (hmove : ∀ s l s' l', sys.move s l s' l' → R s s')
    (h : Steps sys w w') : R w.shared w'.shared := by
  induction h with
  | refl => exact hrefl _
  | tail _ hstep ih =>
    refine htrans _ _ _ ih ?_
    cases hstep with
    | env s h => exact henv _ _ h
    | move i s l h => exact hmove _ _ _ _ h

/-- A run of the restricted system is one of the system. -/
theorem Steps.of_only {ok : σ → ℓ → Prop} (h : Steps (sys.only ok) w w') : Steps sys w w' := by
  refine ReflTransGen.mono (fun _ _ hstep => ?_) _ _ h
  cases hstep with
  | env s henv => exact .env _ s henv
  | move i s l hmove => exact .move _ i s l hmove.2

/-- A client's step, from where it is known to stand. -/
theorem Step.of_client {s s' : σ} {l l' : ℓ} {c : τ → ℓ} {i : τ} (hc : c i = l) (h : sys.move s l s' l') :
    Step sys ⟨s, c⟩ ⟨s', Function.update c i l'⟩ := by
  subst hc
  exact .move ⟨s, c⟩ i s' l' h

/-! ### Two clients -/

def two (first second : ℓ) : Bool → ℓ
  | false => first
  | true => second

variable {s s' : σ} {a a' b b' : ℓ}

theorem Step.first (b : ℓ) (h : sys.move s a s' a') : Step sys ⟨s, two a b⟩ ⟨s', two a' b⟩ := by
  have hstep : Step sys ⟨s, two a b⟩ _ := .move _ false s' a' h
  have hupdate : Function.update (two a b) false a' = two a' b := by
    funext i
    cases i <;> simp [two]
  rwa [hupdate] at hstep

theorem Step.second (a : ℓ) (h : sys.move s b s' b') : Step sys ⟨s, two a b⟩ ⟨s', two a b'⟩ := by
  have hstep : Step sys ⟨s, two a b⟩ _ := .move _ true s' b' h
  have hupdate : Function.update (two a b) true b' = two a b' := by
    funext i
    cases i <;> simp [two]
  rwa [hupdate] at hstep

end Atomic
