import Mathlib.Logic.Function.Basic
import Mathlib.Logic.Relation

/-! @lib row locks | layer:library | family:concurrency

    Transactions that hold rows in one of PostgreSQL's modes. A transaction's step is granted when what it then
    holds conflicts with nothing another holds; until then it waits.

                      key share   no key update   update
        key share                                    ✗
        no key update                  ✗             ✗
        update            ✗            ✗             ✗

    What holds of the shared value (`G`) and of each transaction (`L`) is carried through every interleaving by
    `Preserved`, whose obligations may use that two transactions hold nothing in conflict. -/

namespace RowLocks

open Relation

inductive Mode where
  | keyShare | noKeyUpdate | update
  deriving DecidableEq, Repr

def Mode.conflicts : Mode → Mode → Bool
  | .keyShare, .keyShare | .keyShare, .noKeyUpdate | .noKeyUpdate, .keyShare => false
  | _, _ => true

theorem Mode.conflicts_comm (a b : Mode) : a.conflicts b = b.conflicts a := by cases a <;> cases b <;> rfl

theorem Mode.conflicts_update (a : Mode) : a.conflicts .update = true := by cases a <;> rfl

/-- What the environment does to the shared value, what a transaction does to it and to itself, and what a
    transaction holds. -/
structure System (σ ℓ κ : Type*) where
  env : σ → σ → Prop
  move : σ → ℓ → σ → ℓ → Prop
  held : ℓ → List (κ × Mode)

/-- The shared value, and each transaction by its name. -/
structure World (σ ℓ τ : Type*) where
  shared : σ
  client : τ → ℓ

variable {σ ℓ κ τ : Type*} {sys : System σ ℓ κ} {w w' : World σ ℓ τ}

/-- Nothing held by one conflicts with anything held by the other. -/
def System.Apart (sys : System σ ℓ κ) (l m : ℓ) : Prop :=
  ∀ k a b, (k, a) ∈ sys.held l → (k, b) ∈ sys.held m → a.conflicts b = false

theorem System.Apart.symm {l m : ℓ} (h : sys.Apart l m) : sys.Apart m l := fun k a b ha hb =>
  (Mode.conflicts_comm a b).trans (h k b a hb ha)

/-- A row held for update is held by no one else. -/
theorem System.Apart.not_update {l m : ℓ} (h : sys.Apart l m) {k : κ} {a : Mode} (ha : (k, a) ∈ sys.held l)
    (hb : (k, Mode.update) ∈ sys.held m) : False := by
  have hfree := h k a .update ha hb
  rw [Mode.conflicts_update] at hfree
  exact absurd hfree (by decide)

/-- What holds nothing conflicts with nothing. -/
theorem System.apart_of_nil {m : ℓ} (h : sys.held m = []) (l : ℓ) : sys.Apart l m := by
  intro k a b _ hm
  rw [h] at hm
  exact absurd hm List.not_mem_nil

theorem System.apart_of_nil_left {l : ℓ} (h : sys.held l = []) (m : ℓ) : sys.Apart l m := (apart_of_nil h m).symm

variable [DecidableEq τ]

inductive Step (sys : System σ ℓ κ) : World σ ℓ τ → World σ ℓ τ → Prop where
  | env (w : World σ ℓ τ) (s : σ) (h : sys.env w.shared s) : Step sys w { w with shared := s }
  | move (w : World σ ℓ τ) (i : τ) (s : σ) (l : ℓ) (h : sys.move w.shared (w.client i) s l)
      (hgranted : ∀ j, j ≠ i → sys.Apart l (w.client j)) : Step sys w ⟨s, Function.update w.client i l⟩

/-- Any number of steps. -/
abbrev Steps (sys : System σ ℓ κ) : World σ ℓ τ → World σ ℓ τ → Prop := ReflTransGen (Step sys)

/-- The same, a transaction moving only where `ok` lets it beside each of the others: where it stood, where it then
    stands, and where the other does. -/
inductive StepIf (sys : System σ ℓ κ) (ok : ℓ → ℓ → ℓ → Prop) : World σ ℓ τ → World σ ℓ τ → Prop where
  | env (w : World σ ℓ τ) (s : σ) (h : sys.env w.shared s) : StepIf sys ok w { w with shared := s }
  | move (w : World σ ℓ τ) (i : τ) (s : σ) (l : ℓ) (h : sys.move w.shared (w.client i) s l)
      (hgranted : ∀ j, j ≠ i → sys.Apart l (w.client j)) (hok : ∀ j, j ≠ i → ok (w.client i) l (w.client j)) :
      StepIf sys ok w ⟨s, Function.update w.client i l⟩

/-- Any number of steps. -/
abbrev StepsIf (sys : System σ ℓ κ) (ok : ℓ → ℓ → ℓ → Prop) : World σ ℓ τ → World σ ℓ τ → Prop :=
  ReflTransGen (StepIf sys ok)

/-- What is to prove of one step, of a transaction that moves only where `ok` lets it. -/
structure PreservedIf (sys : System σ ℓ κ) (ok : ℓ → ℓ → ℓ → Prop) (G : σ → Prop) (L : σ → ℓ → Prop) : Prop where
  env : ∀ s s', G s → sys.env s s' → G s'
  env_client : ∀ s s' l, G s → L s l → sys.env s s' → L s' l
  move : ∀ s l s' l', G s → L s l → sys.move s l s' l' → G s' ∧ L s' l'
  move_other : ∀ s l s' l' m, sys.Apart l m → ok l l' m → G s → L s l → L s m → sys.move s l s' l' → L s' m

/-- What is to prove of one step. -/
structure Preserved (sys : System σ ℓ κ) (G : σ → Prop) (L : σ → ℓ → Prop) : Prop where
  env : ∀ s s', G s → sys.env s s' → G s'
  env_client : ∀ s s' l, G s → L s l → sys.env s s' → L s' l
  move : ∀ s l s' l', G s → L s l → sys.move s l s' l' → G s' ∧ L s' l'
  move_other : ∀ s l s' l' m, sys.Apart l m → G s → L s l → L s m → sys.move s l s' l' → L s' m

/-- What holds at every point of an interleaving. -/
structure Holds (sys : System σ ℓ κ) (G : σ → Prop) (L : σ → ℓ → Prop) (w : World σ ℓ τ) : Prop where
  apart : ∀ i j, i ≠ j → sys.Apart (w.client i) (w.client j)
  shared : G w.shared
  client : ∀ i, L w.shared (w.client i)

variable {G : σ → Prop} {L : σ → ℓ → Prop} {ok : ℓ → ℓ → ℓ → Prop}

omit [DecidableEq τ] in
/-- Nothing held, what is to be carried holds from the start. -/
theorem Holds.of_nil (hheld : ∀ i, sys.held (w.client i) = []) (hshared : G w.shared)
    (hclient : ∀ i, L w.shared (w.client i)) : Holds sys G L w :=
  ⟨fun _ j _ => System.apart_of_nil (hheld j) _, hshared, hclient⟩

/-- STEP: what is preserved holds on, and no lock is held against another. -/
theorem PreservedIf.step (p : PreservedIf sys ok G L) (h : Holds sys G L w) (hstep : StepIf sys ok w w') :
    Holds sys G L w' := by
  cases hstep with
  | env s henv =>
    exact ⟨h.apart, p.env _ s h.shared henv, fun i => p.env_client _ s _ h.shared (h.client i) henv⟩
  | move i s l hmove hgranted hok =>
    obtain ⟨hshared, hclient⟩ := p.move _ _ s l h.shared (h.client i) hmove
    refine ⟨fun j k hjk => ?_, hshared, fun j => ?_⟩
    · dsimp only
      by_cases hj : j = i
      · subst hj
        rw [Function.update_self, Function.update_of_ne hjk.symm]
        exact hgranted k hjk.symm
      · rw [Function.update_of_ne hj]
        by_cases hk : k = i
        · subst hk
          rw [Function.update_self]
          exact (hgranted j hj).symm
        · rw [Function.update_of_ne hk]
          exact h.apart j k hjk
    · dsimp only
      by_cases hj : j = i
      · subst hj
        rwa [Function.update_self]
      · rw [Function.update_of_ne hj]
        exact p.move_other _ _ s l _ (h.apart i j (Ne.symm hj)) (hok j hj) h.shared (h.client i) (h.client j) hmove

/-- RUN: what is preserved holds on, from wherever it holds. -/
theorem PreservedIf.steps (p : PreservedIf sys ok G L) (h : Holds sys G L w) (hrun : StepsIf sys ok w w') :
    Holds sys G L w' := by
  induction hrun with
  | refl => exact h
  | tail _ hstep ih => exact p.step ih hstep

/-- STEP: what is preserved holds on, and no lock is held against another. -/
theorem Preserved.step (p : Preserved sys G L) (h : Holds sys G L w) (hstep : Step sys w w') : Holds sys G L w' := by
  have hpreserved : PreservedIf sys (fun _ _ _ => True) G L :=
    ⟨p.env, p.env_client, p.move, fun s l s' l' m hapart _ => p.move_other s l s' l' m hapart⟩
  cases hstep with
  | env s henv => exact hpreserved.step h (.env w s henv)
  | move i s l hmove hgranted => exact hpreserved.step h (.move w i s l hmove hgranted fun _ _ => trivial)

/-- RUN: what is preserved holds on, from wherever it holds. -/
theorem Preserved.steps (p : Preserved sys G L) (h : Holds sys G L w) (hrun : Steps sys w w') : Holds sys G L w' := by
  induction hrun with
  | refl => exact h
  | tail _ hstep ih => exact p.step ih hstep

/-! ### Two transactions -/

def two (first second : ℓ) : Bool → ℓ
  | false => first
  | true => second

variable {s s' : σ} {a a' b b' : ℓ}

theorem Step.first (h : sys.move s a s' a') (hgranted : sys.Apart a' b) : Step sys ⟨s, two a b⟩ ⟨s', two a' b⟩ := by
  have hstep : Step sys ⟨s, two a b⟩ _ := .move _ false s' a' h fun j hj => by
    cases j
    · exact absurd rfl hj
    · exact hgranted
  have hupdate : Function.update (two a b) false a' = two a' b := by
    funext i
    cases i <;> simp [two]
  rwa [hupdate] at hstep

theorem Step.second (h : sys.move s b s' b') (hgranted : sys.Apart b' a) : Step sys ⟨s, two a b⟩ ⟨s', two a b'⟩ := by
  have hstep : Step sys ⟨s, two a b⟩ _ := .move _ true s' b' h fun j hj => by
    cases j
    · exact hgranted
    · exact absurd rfl hj
  have hupdate : Function.update (two a b) true b' = two a b' := by
    funext i
    cases i <;> simp [two]
  rwa [hupdate] at hstep

end RowLocks
