import Mathlib.Data.Finset.Card
import Mathlib.Logic.Relation
import ManageOurHome.Lib.Loop

/-! @lib searches | layer:library | family:graphs

    A search with a stack: what is found is marked once, when it is pushed, and its successors are looked at when it is
    popped. Over a finite set closed under the successors it ends, with exactly what the start leads to.

        stack [t]  ──pop t, push its new successors──▶  stack [p, q]  ──▶ … ──▶  stack [] -/

namespace Search

open Loop (Turn run run_total)
open Relation (ReflTransGen)

variable {α : Type*} [DecidableEq α] (next : α → List α)

/-- What is marked, and what of it is still to be looked at. -/
structure State (α : Type*) where
  seen : List α
  stack : List α

/-- Successors, those not yet marked being marked and pushed. -/
def push : List α → State α → State α
  | [], s => s
  | p :: ps, s => if p ∈ s.seen then push ps s else push ps ⟨p :: s.seen, p :: s.stack⟩

def turn (s : State α) : Option (Turn (State α) (List α)) :=
  match s.stack with
  | [] => some (.done s.seen)
  | t :: stack => some (.again (push (next t) ⟨s.seen, stack⟩))

def search (fuel : ℕ) (start : α) : Option (List α) := run (turn next) fuel ⟨[start], [start]⟩

variable {next} {start : α} {s : State α} {ps : List α} {U : Finset α} {b t : α}

/-- What pushing does. -/
structure Pushed (ps : List α) (s s' : State α) : Prop where
  mem : ∀ b, b ∈ s'.seen ↔ b ∈ s.seen ∨ b ∈ ps
  stack : ∀ b, b ∈ s'.stack ↔ b ∈ s.stack ∨ (b ∈ ps ∧ b ∉ s.seen)
  nodup : s.seen.Nodup → s'.seen.Nodup
  length : s'.seen.length + s.stack.length = s.seen.length + s'.stack.length

theorem push_pushed (ps : List α) (s : State α) : Pushed ps s (push ps s) := by
  induction ps generalizing s with
  | nil => exact ⟨by simp [push], by simp [push], fun h => h, rfl⟩
  | cons p ps ih =>
    rw [push]
    split
    · rename_i hp
      obtain ⟨hmem, hstack, hnodup, hlength⟩ := ih s
      refine ⟨fun b => ?_, fun b => ?_, hnodup, hlength⟩
      · rw [hmem, List.mem_cons]
        constructor
        · exact Or.imp_right .inr
        · rintro (h | rfl | h)
          · exact .inl h
          · exact .inl hp
          · exact .inr h
      · rw [hstack, List.mem_cons]
        constructor
        · exact Or.imp_right fun ⟨h, hnot⟩ => ⟨.inr h, hnot⟩
        · rintro (h | ⟨rfl | h, hnot⟩)
          · exact .inl h
          · exact absurd hp hnot
          · exact .inr ⟨h, hnot⟩
    · rename_i hp
      obtain ⟨hmem, hstack, hnodup, hlength⟩ := ih ⟨p :: s.seen, p :: s.stack⟩
      refine ⟨fun b => ?_, fun b => ?_, fun h => hnodup (List.nodup_cons.mpr ⟨hp, h⟩), ?_⟩
      · rw [hmem, List.mem_cons, List.mem_cons, or_assoc, or_left_comm]
      · rw [hstack, List.mem_cons, List.mem_cons, List.mem_cons, not_or]
        constructor
        · rintro ((rfl | h) | ⟨h, -, hnot⟩)
          · exact .inr ⟨.inl rfl, hp⟩
          · exact .inl h
          · exact .inr ⟨.inr h, hnot⟩
        · rintro (h | ⟨rfl | h, hnot⟩)
          · exact .inl (.inr h)
          · exact .inl (.inl rfl)
          · by_cases hb : b = p
            · exact .inl (.inl hb)
            · exact .inr ⟨h, hb, hnot⟩
      · dsimp only [List.length_cons] at hlength
        omega

/-- What holds between two turns. -/
structure Inv (next : α → List α) (start : α) (U : Finset α) (s : State α) : Prop where
  found : start ∈ s.seen
  reached : ∀ b ∈ s.seen, ReflTransGen (fun a b => b ∈ next a) start b
  within : ∀ b ∈ s.seen, b ∈ U
  nodup : s.seen.Nodup
  stack : ∀ b ∈ s.stack, b ∈ s.seen
  closed : ∀ a ∈ s.seen, a ∈ s.stack ∨ ∀ b ∈ next a, b ∈ s.seen

theorem Inv.push (h : Inv next start U s) (hU : ∀ a ∈ U, ∀ b ∈ next a, b ∈ U) {stack : List α} (hs : s.stack = t :: stack) :
    Inv next start U (push (next t) ⟨s.seen, stack⟩) := by
  obtain ⟨hmem, hstack, hnodup, -⟩ := push_pushed (next t) ⟨s.seen, stack⟩
  have ht : t ∈ s.seen := h.stack t (hs ▸ List.mem_cons_self)
  refine ⟨(hmem _).mpr (.inl h.found), fun b hb => ?_, fun b hb => ?_, hnodup h.nodup, fun b hb => ?_, fun a ha => ?_⟩
  · rcases (hmem b).mp hb with hb | hb
    · exact h.reached b hb
    · exact (h.reached t ht).tail hb
  · rcases (hmem b).mp hb with hb | hb
    · exact h.within b hb
    · exact hU t (h.within t ht) b hb
  · rcases (hstack b).mp hb with hb | ⟨hb, -⟩
    · exact (hmem b).mpr (.inl (h.stack b (hs ▸ List.mem_cons_of_mem _ hb)))
    · exact (hmem b).mpr (.inr hb)
  · by_cases hseen : a ∈ s.seen
    · by_cases hat : a = t
      · exact .inr fun b hb => (hmem b).mpr (.inr (hat ▸ hb))
      · rcases h.closed a hseen with hwait | hclosed
        · rw [hs, List.mem_cons] at hwait
          exact .inl ((hstack a).mpr (.inl (hwait.resolve_left hat)))
        · exact .inr fun b hb => (hmem b).mpr (.inl (hclosed b hb))
    · have hnew := ((hmem a).mp ha).resolve_left hseen
      exact .inl ((hstack a).mpr (.inr ⟨hnew, hseen⟩))

/-- The rule of searches: over a finite set, a turn for each of its elements and one more give what is reached. -/
theorem search_eq (hstart : start ∈ U) (hU : ∀ a ∈ U, ∀ b ∈ next a, b ∈ U) {fuel : ℕ} (hfuel : U.card < fuel) :
    ∃ seen, search next fuel start = some seen ∧ ∀ b, b ∈ seen ↔ ReflTransGen (fun a b => b ∈ next a) start b := by
  refine run_total (I := Inv next start U) (V := fun s => U.card - s.seen.length + s.stack.length) ?_ ?_ ?_
  · intro s hs
    have hcard : ∀ s : State α, Inv next start U s → s.seen.length ≤ U.card := fun s hs => by
      rw [← List.toFinset_card_of_nodup hs.nodup]
      exact Finset.card_le_card fun b hb => hs.within b (List.mem_toFinset.mp hb)
    cases hstack : s.stack with
    | nil =>
      refine .inr ⟨s.seen, by rw [turn, hstack], fun b => ⟨hs.reached b, fun hb => ?_⟩⟩
      have hclosed : ∀ a ∈ s.seen, ∀ b ∈ next a, b ∈ s.seen := fun a ha => (hs.closed a ha).resolve_left
        (by rw [hstack]; exact List.not_mem_nil)
      induction hb with
      | refl => exact hs.found
      | tail _ hstep ih => exact hclosed _ ih _ hstep
    | cons t stack =>
      have hpush := hs.push hU hstack
      refine .inl ⟨_, by rw [turn, hstack], hpush, ?_⟩
      have hlength := (push_pushed (next t) ⟨s.seen, stack⟩).length
      have hbound := hcard _ hpush
      dsimp only [List.length_cons] at hlength ⊢
      omega
  · exact ⟨List.mem_singleton_self _, fun b hb => List.mem_singleton.mp hb ▸ .refl,
      fun b hb => List.mem_singleton.mp hb ▸ hstart, List.nodup_singleton _, fun b hb => hb, fun a ha => .inl ha⟩
  · have hpos : 0 < U.card := Finset.card_pos.mpr ⟨start, hstart⟩
    dsimp only [List.length_cons, List.length_nil]
    omega

end Search
