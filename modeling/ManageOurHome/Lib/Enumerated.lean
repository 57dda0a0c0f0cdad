import Mathlib.Data.Finset.Card
import Mathlib.Order.Hom.Basic

/-! @lib enumerations in order | layer:library | family:orders

    A set enumerated in increasing order: `W 0`, `W 1`, and so on, to its end if it has one. What stands `k`-th is
    settled by what is smaller; so two sets are enumerated side by side, up to some place, exactly if up to what stands
    there the one is the image of the other.

        W    a₀ < a₁ < a₂ < …          W' k = (W k).map f,  k ≤ 2
        W'   f a₀ < f a₁ < f a₂ < …     ⇔  a ∈ T ↔ f a ∈ T',  a ≤ a₂ -/

variable {α β : Type*} [LinearOrder α] [LinearOrder β] {W : ℕ → Option α} {T : Set α} {W' : ℕ → Option β} {T' : Set β}
  {i j k n : ℕ} {a b : α}

/-- `W` lists the elements of `T` in increasing order, and ends after the last if there is one. -/
structure Enumerates (W : ℕ → Option α) (T : Set α) : Prop where
  ended : ∀ i, W i = none → W (i + 1) = none
  increasing : ∀ i a b, W i = some a → W (i + 1) = some b → a < b
  mem : ∀ a, a ∈ T ↔ ∃ i, W i = some a

namespace Enumerates

theorem none_of_le (h : Enumerates W T) (hi : W i = none) (hij : i ≤ j) : W j = none := by
  induction hij with
  | refl => exact hi
  | step _ ih => exact h.ended _ ih

theorem some_of_le (h : Enumerates W T) (hj : W j = some b) (hij : i ≤ j) : ∃ a, W i = some a := by
  refine Option.ne_none_iff_exists'.mp fun hi => ?_
  rw [h.none_of_le hi hij] at hj
  cases hj

theorem lt (h : Enumerates W T) (hij : i < j) (hi : W i = some a) (hj : W j = some b) : a < b := by
  induction hij generalizing b with
  | refl => exact h.increasing i a b hi hj
  | @step m hm ih =>
    obtain ⟨c, hc⟩ := h.some_of_le hj m.le_succ
    exact (ih hc).trans (h.increasing m c b hc hj)

theorem lt_iff (h : Enumerates W T) (hi : W i = some a) (hj : W j = some b) : a < b ↔ i < j := by
  constructor
  · intro hab
    by_contra hij
    rcases (not_lt.mp hij).eq_or_lt with rfl | hji
    · exact hab.ne (Option.some.inj (hi.symm.trans hj))
    · exact lt_asymm hab (h.lt hji hj hi)
  · intro hij
    exact h.lt hij hi hj

theorem inj (h : Enumerates W T) (hi : W i = some a) (hj : W j = some a) : i = j := by
  rcases lt_trichotomy i j with hij | rfl | hji
  · exact absurd (h.lt hij hi hj) (lt_irrefl a)
  · rfl
  · exact absurd (h.lt hji hj hi) (lt_irrefl a)

/-- Fewer than `n` elements come before `a` exactly if one of the first `n` places is not before it. -/
theorem card_lt_iff (h : Enumerates W T) {before : Finset α} (hbefore : ∀ b, b ∈ before ↔ b ∈ T ∧ b < a) :
    before.card < n ↔ ∃ k < n, ∀ b ∈ W k, a ≤ b := by
  -- the places of what comes before `a`
  have hplaces : ∀ k, (∀ b ∈ W k, a ≤ b) → before.card ≤ k := by
    intro k hk
    choose! place hplace using fun b (hb : b ∈ before) => (h.mem b).mp ((hbefore b).mp hb).1
    rw [← Finset.card_range k]
    refine Finset.card_le_card_of_injOn place (fun b hb => ?_) fun b hb c hc heq => ?_
    · rw [Finset.coe_range, Set.mem_Iio]
      by_contra hle
      obtain ⟨c, hc⟩ := h.some_of_le (hplace b hb) (not_lt.mp hle)
      have hcb : c ≤ b := not_lt.mp fun hbc => hle ((h.lt_iff (hplace b hb) hc).mp hbc)
      exact absurd ((hk c hc).trans hcb) (not_le.mpr ((hbefore b).mp hb).2)
    · have hb := hplace b hb
      rw [heq] at hb
      exact Option.some.inj (hb.symm.trans (hplace c hc))
  constructor
  · intro hlt
    refine ⟨before.card, hlt, fun b hb => ?_⟩
    by_contra hba
    -- the first places up to that one are all before `a`
    have hfirst : ∀ i ∈ Finset.range (before.card + 1), ∃ c ∈ before, W i = some c := by
      intro i hi
      have hle : i ≤ before.card := Nat.lt_succ_iff.mp (Finset.mem_range.mp hi)
      obtain ⟨c, hc⟩ := h.some_of_le hb hle
      have hcb : c ≤ b := not_lt.mp fun hbc => absurd ((h.lt_iff hb hc).mp hbc) (not_lt.mpr hle)
      exact ⟨c, (hbefore c).mpr ⟨(h.mem c).mpr ⟨i, hc⟩, hcb.trans_lt (not_le.mp hba)⟩, hc⟩
    have : Nonempty α := ⟨a⟩
    choose! c hc using hfirst
    have hcard : (Finset.range (before.card + 1)).card ≤ before.card := by
      refine Finset.card_le_card_of_injOn c (fun i hi => (hc i hi).1) fun i hi j hj heq => ?_
      have hi := (hc i hi).2
      rw [heq] at hi
      exact h.inj hi (hc j hj).2
    rw [Finset.card_range] at hcard
    exact absurd hcard (Nat.not_succ_le_self _)
  · rintro ⟨k, hk, hfrom⟩
    exact (hplaces k hfrom).trans_lt hk

/-- RUN: two enumerations go side by side, up to some place, exactly if the sets do. By induction on the place: what
    comes before it is the same, so that nothing else can stand there. -/
theorem map_eq_iff (h : Enumerates W T) (h' : Enumerates W' T') (f : α ≃o β) {p : ℕ → Prop}
    (hp : ∀ j k, j ≤ k → p k → p j) : (∀ k, p k → W' k = (W k).map f) ↔
      ∀ a, (∃ k, p k ∧ ∀ b ∈ W k, a ≤ b) → (a ∈ T ↔ f a ∈ T') := by
  constructor
  · intro hsame a ⟨k, hk, hfrom⟩
    constructor
    · intro ha
      obtain ⟨i, hi⟩ := (h.mem a).mp ha
      have hik : i ≤ k := by
        by_contra hki
        obtain ⟨b, hb⟩ := h.some_of_le hi (not_le.mp hki).le
        exact absurd ((h.lt_iff hb hi).mpr (not_le.mp hki)) (not_lt.mpr (hfrom b hb))
      refine (h'.mem _).mpr ⟨i, ?_⟩
      rw [hsame i (hp i k hik hk), hi]
      rfl
    · intro ha
      obtain ⟨i, hi⟩ := (h'.mem _).mp ha
      rcases le_or_gt i k with hik | hki
      · rw [hsame i (hp i k hik hk), Option.map_eq_some_iff] at hi
        obtain ⟨b, hb, heq⟩ := hi
        exact (h.mem a).mpr ⟨i, f.injective heq ▸ hb⟩
      · obtain ⟨c, hc⟩ := h'.some_of_le hi hki.le
        have hlt := (h'.lt_iff hc hi).mpr hki
        rw [hsame k hk, Option.map_eq_some_iff] at hc
        obtain ⟨b, hb, rfl⟩ := hc
        exact absurd (f.lt_iff_lt.mp hlt) (not_lt.mpr (hfrom b hb))
  · intro hsets k
    induction k using Nat.strong_induction_on with
    | _ k ih =>
      intro hk
      have hahead : ∀ i < k, W' i = (W i).map f := fun i hi => ih i hi (hp i k hi.le hk)
      -- what stands there in the second is not before its place in the first
      have hback : ∀ c, W' k = some c → ∀ a, f a = c → (∀ b ∈ W k, a ≤ b) → ∀ i, W i = some a → k ≤ i := by
        intro c hc a ha _ i hi
        by_contra hik
        have hi' := hahead i (not_le.mp hik)
        rw [hi, Option.map_some, ha] at hi'
        exact hik (h'.inj hc hi').le
      cases hW : W k with
      | none =>
        rw [Option.map_none, Option.eq_none_iff_forall_ne_some]
        intro c hc
        have hfrom : ∀ b ∈ W k, f.symm c ≤ b := by
          intro b hb
          rw [hW] at hb
          cases hb
        have hmem : f.symm c ∈ T := by
          rw [hsets _ ⟨k, hk, hfrom⟩, f.apply_symm_apply]
          exact (h'.mem c).mpr ⟨k, hc⟩
        obtain ⟨i, hi⟩ := (h.mem _).mp hmem
        have hki := hback c hc _ (f.apply_symm_apply c) hfrom i hi
        rw [h.none_of_le hW hki] at hi
        cases hi
      | some a =>
        have hfrom : ∀ b ∈ W k, a ≤ b := fun b hb => (Option.some.inj (hW.symm.trans hb)).le
        obtain ⟨j, hj⟩ := (h'.mem _).mp ((hsets a ⟨k, hk, hfrom⟩).mp ((h.mem a).mpr ⟨k, hW⟩))
        have hkj : k ≤ j := by
          by_contra hjk
          have hj' := hahead j (not_le.mp hjk)
          rw [hj, eq_comm, Option.map_eq_some_iff] at hj'
          obtain ⟨b, hb, heq⟩ := hj'
          exact hjk (h.inj hW (f.injective heq ▸ hb)).le
        obtain ⟨c, hc⟩ := h'.some_of_le hj hkj
        rcases hkj.eq_or_lt with rfl | hlt
        · rw [hj, Option.map_some]
        · -- it would stand before `f a`, and be the image of something already listed
          have hca : f.symm c < a := by
            rw [f.symm_apply_lt]
            exact (h'.lt_iff hc hj).mpr hlt
          have hfrom' : ∀ b ∈ W k, f.symm c ≤ b := fun b hb => hca.le.trans (hfrom b hb)
          have hmem : f.symm c ∈ T := by
            rw [hsets _ ⟨k, hk, hfrom'⟩, f.apply_symm_apply]
            exact (h'.mem c).mpr ⟨k, hc⟩
          obtain ⟨i, hi⟩ := (h.mem _).mp hmem
          have hki := hback c hc _ (f.apply_symm_apply c) hfrom' i hi
          exact absurd ((h.lt_iff hi hW).mp hca) (not_lt.mpr hki)

end Enumerates
