import Mathlib.Data.List.Nodup
import Mathlib.Data.List.Perm.Basic
import Mathlib.Order.Basic
import Mathlib.Order.Lattice
import Mathlib.Tactic.Common

/-! @lib ordered maps | layer:library | family:keyed rows

    An ordered map of values that hold their own keys: the list of the values, in strictly increasing order of their
    keys. Two maps of the same values are one map, in whichever order the values came, and however often.

        b, a, c, a   ──▶   a, b, c -/

namespace OrderedMap

variable {K V : Type*} [LinearOrder K] {key : V → K}

/-- The values of an ordered map. -/
structure OMap (key : V → K) where
  values : List V
  increasing : values.Pairwise fun u v => key u < key v

/-- A value before the first of a greater key, in place of the one of its own key. -/
def insertInto (key : V → K) (v : V) : List V → List V
  | [] => [v]
  | u :: l => if key v < key u then v :: u :: l else if key u < key v then u :: insertInto key v l else v :: l

variable {u v : V} {k : K} {l : List V}

theorem mem_insertInto (h : ∀ u ∈ l, key u ≠ key v) : u ∈ insertInto key v l ↔ u = v ∨ u ∈ l := by
  induction l with
  | nil => simp [insertInto]
  | cons x l ih =>
    rw [insertInto]
    split
    · rw [List.mem_cons]
    · rename_i hnot
      have hlt : key x < key v := (not_lt.mp hnot).lt_of_ne (h x List.mem_cons_self)
      rw [if_pos hlt, List.mem_cons, List.mem_cons, ih fun y hy => h y (List.mem_cons_of_mem _ hy), or_left_comm]

theorem key_mem_insertInto (h : u ∈ insertInto key v l) : u = v ∨ u ∈ l := by
  induction l with
  | nil => exact .inl (List.mem_singleton.mp h)
  | cons x l ih =>
    rw [insertInto] at h
    split at h
    · exact List.mem_cons.mp h
    · split at h
      · rcases List.mem_cons.mp h with rfl | h
        · exact .inr List.mem_cons_self
        · exact (ih h).imp_right (List.mem_cons_of_mem _)
      · exact (List.mem_cons.mp h).imp_right (List.mem_cons_of_mem _)

theorem increasing_insertInto (v : V) (h : l.Pairwise fun u v => key u < key v) :
    (insertInto key v l).Pairwise fun u v => key u < key v := by
  induction l with
  | nil => exact List.pairwise_singleton _ _
  | cons x l ih =>
    obtain ⟨hx, hl⟩ := List.pairwise_cons.mp h
    rw [insertInto]
    split
    · rename_i hlt
      refine List.pairwise_cons.mpr ⟨fun y hy => ?_, h⟩
      rcases List.mem_cons.mp hy with rfl | hy
      · exact hlt
      · exact hlt.trans (hx y hy)
    · rename_i hnot
      split
      · rename_i hlt
        refine List.pairwise_cons.mpr ⟨fun y hy => ?_, ih hl⟩
        rcases key_mem_insertInto hy with rfl | hy
        · exact hlt
        · exact hx y hy
      · rename_i hnot'
        have heq : key v = key x := le_antisymm (not_lt.mp hnot') (not_lt.mp hnot)
        exact List.pairwise_cons.mpr ⟨fun y hy => heq ▸ hx y hy, hl⟩

namespace OMap

variable {m n : OMap key}

theorem nodup_keys (m : OMap key) : (m.values.map key).Nodup :=
  List.pairwise_map.mpr (m.increasing.imp fun h => h.ne)

theorem key_inj (hu : u ∈ m.values) (hv : v ∈ m.values) (h : key u = key v) : u = v :=
  List.inj_on_of_nodup_map m.nodup_keys hu hv h

/-- Two maps of the same values are the same map. -/
theorem ext_mem (h : ∀ v, v ∈ m.values ↔ v ∈ n.values) : m = n := by
  have hperm : m.values.Perm n.values :=
    (List.perm_ext_iff_of_nodup m.nodup_keys.of_map n.nodup_keys.of_map).mpr h
  have heq : m.values = n.values :=
    hperm.eq_of_pairwise (fun _ _ _ _ hlt hgt => absurd hgt hlt.not_gt) m.increasing n.increasing
  cases m
  cases n
  cases heq
  rfl

def empty : OMap key := ⟨[], .nil⟩

def get (m : OMap key) (k : K) : Option V := m.values.find? fun v => key v = k

theorem get_eq_some : m.get k = some v ↔ v ∈ m.values ∧ key v = k := by
  constructor
  · intro h
    exact ⟨List.mem_of_find?_eq_some h, by simpa using List.find?_some h⟩
  · rintro ⟨hv, rfl⟩
    cases hget : m.get (key v) with
    | none => exact absurd rfl (of_decide_eq_false (Bool.eq_false_iff.mpr (List.find?_eq_none.mp hget v hv)))
    | some u =>
      have hu : key u = key v := by simpa using List.find?_some hget
      rw [key_inj (List.mem_of_find?_eq_some hget) hv hu]

theorem get_eq_none : m.get k = none ↔ ∀ v ∈ m.values, key v ≠ k := by
  rw [get, List.find?_eq_none]
  exact forall₂_congr fun v _ => by rw [decide_eq_true_iff]

def insert (m : OMap key) (v : V) : OMap key := ⟨insertInto key v m.values, increasing_insertInto v m.increasing⟩

theorem mem_insert (h : m.get (key v) = none) : u ∈ (m.insert v).values ↔ u = v ∨ u ∈ m.values :=
  mem_insertInto (get_eq_none.mp h)

end OMap

end OrderedMap
