import Mathlib.Algebra.BigOperators.Group.List.Basic
import Mathlib.Data.List.Induction
import Mathlib.Data.List.Nodup
import Mathlib.Data.List.Perm.Basic

/-! @lib grouping by key | layer:library | family:lists

    A list grouped by key in one pass. An element joins the group of its key, or makes one at the end; the groups stand
    in the order their keys come first.

        a₁ b₁ a₂ c₁ b₂   ⇒   a: make a₁ ⋅ a₂   b: make b₁ ⋅ b₂   c: make c₁ -/

namespace Grouped

variable {α β K : Type*}

/-! ### First appearances -/

section

variable [BEq K] [LawfulBEq K]

theorem eraseDups_concat (l : List K) (k : K) [Decidable (k ∈ l)] :
    (l ++ [k]).eraseDups = if k ∈ l then l.eraseDups else l.eraseDups ++ [k] := by
  rw [List.eraseDups_append]
  by_cases h : k ∈ l
  · simp [List.removeAll, h]
  · simp [List.removeAll, h, List.eraseDups_cons]

theorem nodup_eraseDups (l : List K) : l.eraseDups.Nodup := by
  induction l using List.reverseRecOn with
  | nil => exact List.nodup_nil
  | append_singleton l k ih =>
    classical
    rw [eraseDups_concat]
    split
    · exact ih
    · rename_i hk
      refine List.nodup_append.mpr ⟨ih, List.nodup_singleton k, ?_⟩
      intro a ha b hb hab
      rw [List.mem_singleton.mp hb] at hab
      exact hk (hab ▸ List.mem_eraseDups.mp ha)

end

/-! ### The pass -/

section

variable [DecidableEq K] (key : α → K) (make : α → β) (join : β → α → β)

/-- An element joins the group of its key, or makes one at the end. -/
def into (a : α) : List (K × β) → List (K × β)
  | [] => [(key a, make a)]
  | (k, b) :: groups => if k = key a then (k, join b a) :: groups else (k, b) :: into a groups

def groups (l : List α) : List (K × β) := l.foldl (fun groups a => into key make join a groups) []

/-- The elements of a key. -/
def ofKey (k : K) (l : List α) : List α := l.filter fun a => key a = k

end

variable [DecidableEq K] {key : α → K} {make : α → β} {join : β → α → β} {a : α} {l l' : List α} {k : K} {b : β}

theorem ofKey_eq_nil : ofKey key k l = [] ↔ k ∉ l.map key := by
  rw [ofKey, List.filter_eq_nil_iff, List.mem_map]
  simp

theorem ofKey_concat : ofKey key k (l ++ [a]) = ofKey key k l ++ if key a = k then [a] else [] := by
  rw [ofKey, List.filter_append, ← ofKey, List.filter_singleton]
  by_cases h : key a = k
  · simp [h]
  · simp [h]

theorem groups_concat : groups key make join (l ++ [a]) = into key make join a (groups key make join l) := by
  rw [groups, List.foldl_append, List.foldl_cons, List.foldl_nil, ← groups]

variable {gs : List (K × β)}

theorem keys_into : (into key make join a gs).map Prod.fst =
    if key a ∈ gs.map Prod.fst then gs.map Prod.fst else gs.map Prod.fst ++ [key a] := by
  induction gs with
  | nil => rfl
  | cons head gs ih =>
    obtain ⟨k, b⟩ := head
    rw [into]
    by_cases hk : k = key a
    · simp [hk]
    · rw [if_neg hk, List.map_cons, ih]
      by_cases hmem : key a ∈ gs.map Prod.fst
      · simp [hmem]
      · simp [hmem, Ne.symm hk]

/-- KEYS: in the order they come first. -/
theorem keys_groups [BEq K] [LawfulBEq K] : (groups key make join l).map Prod.fst = (l.map key).eraseDups := by
  induction l using List.reverseRecOn with
  | nil => rfl
  | append_singleton l a ih =>
    rw [groups_concat, keys_into, ih, List.map_append, List.map_singleton, eraseDups_concat]
    simp only [List.mem_eraseDups]

theorem nodup_groups : ((groups key make join l).map Prod.fst).Nodup := by
  rw [keys_groups]
  exact nodup_eraseDups _

/-- What an element leaves in the groups: the group it joined or made, and the others. -/
theorem mem_into (hnd : (gs.map Prod.fst).Nodup) (h : (k, b) ∈ into key make join a gs) :
    (k ≠ key a ∧ (k, b) ∈ gs) ∨
      k = key a ∧ ((∃ b₀, (k, b₀) ∈ gs ∧ b = join b₀ a) ∨ k ∉ gs.map Prod.fst ∧ b = make a) := by
  induction gs with
  | nil =>
    obtain ⟨rfl, rfl⟩ := Prod.mk.inj (List.mem_singleton.mp h)
    exact .inr ⟨rfl, .inr ⟨List.not_mem_nil, rfl⟩⟩
  | cons head gs ih =>
    obtain ⟨k₀, b₀⟩ := head
    obtain ⟨hfree, hnd⟩ := List.nodup_cons.mp hnd
    have hkey : (k, b) ∈ gs → k ≠ k₀ := fun hmem heq => hfree (List.mem_map.mpr ⟨_, hmem, heq⟩)
    rw [into] at h
    by_cases hk : k₀ = key a
    · rw [if_pos hk] at h
      rcases List.mem_cons.mp h with heq | hmem
      · obtain ⟨rfl, rfl⟩ := Prod.mk.inj heq
        exact .inr ⟨hk, .inl ⟨b₀, List.mem_cons_self, rfl⟩⟩
      · exact .inl ⟨fun heq => hkey hmem (heq.trans hk.symm), List.mem_cons_of_mem _ hmem⟩
    · rw [if_neg hk] at h
      rcases List.mem_cons.mp h with heq | hmem
      · obtain ⟨rfl, rfl⟩ := Prod.mk.inj heq
        exact .inl ⟨hk, List.mem_cons_self⟩
      · rcases ih hnd hmem with ⟨hne, hgs⟩ | ⟨heq, ⟨b₁, hgs, hb⟩ | ⟨hnone, hb⟩⟩
        · exact .inl ⟨hne, List.mem_cons_of_mem _ hgs⟩
        · exact .inr ⟨heq, .inl ⟨b₁, List.mem_cons_of_mem _ hgs, hb⟩⟩
        · refine .inr ⟨heq, .inr ⟨fun hmem => ?_, hb⟩⟩
          rcases List.mem_cons.mp hmem with h | h
          · exact hk (h.symm.trans heq)
          · exact hnone h

/-- GROUP: the first element of its key, with the others of that key joined in order. -/
theorem exists_of_mem_groups (h : (k, b) ∈ groups key make join l) :
    ∃ first rest, ofKey key k l = first :: rest ∧ b = rest.foldl join (make first) := by
  induction l using List.reverseRecOn generalizing b with
  | nil => exact absurd h List.not_mem_nil
  | append_singleton l a ih =>
    rw [groups_concat] at h
    rw [ofKey_concat]
    rcases mem_into nodup_groups h with ⟨hne, hmem⟩ | ⟨rfl, ⟨b₀, hmem, rfl⟩ | ⟨hnone, rfl⟩⟩
    · obtain ⟨first, rest, hof, hb⟩ := ih hmem
      exact ⟨first, rest, by rw [hof, if_neg (Ne.symm hne), List.append_nil], hb⟩
    · obtain ⟨first, rest, hof, rfl⟩ := ih hmem
      refine ⟨first, rest ++ [a], by rw [hof, if_pos rfl, List.cons_append], ?_⟩
      rw [List.foldl_append, List.foldl_cons, List.foldl_nil]
    · rw [keys_groups, List.mem_eraseDups] at hnone
      exact ⟨a, [], by rw [ofKey_eq_nil.mpr hnone, if_pos rfl, List.nil_append], rfl⟩

theorem mem_groups : (k, b) ∈ groups key make join l ↔
    ∃ first rest, ofKey key k l = first :: rest ∧ b = rest.foldl join (make first) := by
  refine ⟨exists_of_mem_groups, ?_⟩
  rintro ⟨first, rest, hof, rfl⟩
  have hmem : k ∈ (groups key make join l).map Prod.fst := by
    rw [keys_groups, List.mem_eraseDups]
    by_contra hnone
    exact absurd (hof.symm.trans (ofKey_eq_nil.mpr hnone)) (List.cons_ne_nil _ _)
  obtain ⟨⟨k, b⟩, hgs, rfl⟩ := List.mem_map.mp hmem
  obtain ⟨first', rest', hof', hb⟩ := exists_of_mem_groups hgs
  obtain ⟨rfl, rfl⟩ := List.cons.inj (hof.symm.trans hof')
  rwa [← hb]

theorem key_of_mem_ofKey (h : a ∈ ofKey key k l) : a ∈ l ∧ key a = k := by
  rw [ofKey, List.mem_filter, decide_eq_true_iff] at h
  exact h

/-! ### Sums by key -/

section

variable {M : Type*} [AddCommMonoid M] {f : α → M} {ks : List K} {k₀ : K} {x : M} {tag : α → Option K}

theorem sum_map_ite (hks : ks.Nodup) (hk : k₀ ∈ ks) : (ks.map fun k => if k₀ = k then x else 0).sum = x := by
  induction ks with
  | nil => exact absurd hk List.not_mem_nil
  | cons k ks ih =>
    obtain ⟨hnot, hrest⟩ := List.nodup_cons.mp hks
    rw [List.map_cons, List.sum_cons]
    by_cases heq : k₀ = k
    · have hzero : (ks.map fun k' => if k₀ = k' then x else 0).sum = 0 := by
        refine List.sum_eq_zero fun y hy => ?_
        obtain ⟨k', hk', rfl⟩ := List.mem_map.mp hy
        exact if_neg fun h => hnot (heq.symm.trans h ▸ hk')
      rw [if_pos heq, hzero, add_zero]
    · rw [if_neg heq, zero_add]
      exact ih hrest ((List.mem_cons.mp hk).resolve_left heq)

/-- What has a key is summed once, under it. -/
theorem sum_sum_of_key (hks : ks.Nodup) (hl : ∀ a ∈ l, ∀ k, tag a = some k → k ∈ ks) :
    (ks.map fun k => ((l.filter fun a => tag a = some k).map f).sum).sum =
      ((l.filter fun a => (tag a).isSome).map f).sum := by
  induction l with
  | nil => simp
  | cons a l ih =>
    rw [List.forall_mem_cons] at hl
    have hcons : ∀ k, (((a :: l).filter fun a => tag a = some k).map f).sum =
        (if tag a = some k then f a else 0) + ((l.filter fun a => tag a = some k).map f).sum := by
      intro k
      by_cases hk : tag a = some k <;> simp [hk]
    simp only [hcons]
    rw [List.sum_map_add, ih hl.2]
    cases ha : tag a with
    | none =>
      have hzero : (ks.map fun k => if none = some k then f a else 0).sum = 0 := by simp
      simp only [List.filter_cons, ha, hzero, zero_add]
      rfl
    | some k₀ =>
      simp only [Option.some.injEq, List.filter_cons, ha, sum_map_ite hks (hl.1 k₀ ha)]
      rfl

end

end Grouped
