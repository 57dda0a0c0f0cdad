import Mathlib.Data.Finset.Card
import Mathlib.Data.Finset.Lattice.Fold
import Mathlib.Data.Finset.Option
import Mathlib.Data.List.MinMax
import Mathlib.Algebra.BigOperators.Group.Finset.Basic
import Mathlib.Algebra.Order.BigOperators.Group.Finset

/-! @lib finite maps | layer:library | family:keyed rows

    A finite map is a partial function with its finite key set beside it, so that lookups are
    equations (`get`) and counts are cardinals (`size`). A hash map and a database table with a
    primary key are both one. Neither has an order of its own: where a program enumerates one, the
    order comes from a `Listing`, a duplicate-free enumeration of every finite set of keys. -/

namespace FiniteMap

/-- A partial function and exactly the keys it is defined on. -/
structure FMap (κ ν : Type*) where
  get : κ → Option ν
  keys : Finset κ
  mem_keys : ∀ k, k ∈ keys ↔ (get k).isSome

variable {κ ν μ β : Type*}

@[simp] theorem filter_const_true (o : Option ν) : (o.filter fun _ => true) = o := by
  cases o <;> rfl

namespace FMap

/-- Two finite maps with the same lookups are the same map. -/
@[ext] theorem ext {m n : FMap κ ν} (h : ∀ k, m.get k = n.get k) : m = n := by
  obtain ⟨f, s, hs⟩ := m
  obtain ⟨g, t, ht⟩ := n
  obtain rfl : f = g := funext h
  obtain rfl : s = t := Finset.ext fun k => (hs k).trans (ht k).symm
  rfl

theorem mem_keys_iff {m : FMap κ ν} {k : κ} : k ∈ m.keys ↔ ∃ v, m.get k = some v := by
  rw [m.mem_keys, Option.isSome_iff_exists]

theorem mem_keys_of_get {m : FMap κ ν} {k : κ} {v : ν} (h : m.get k = some v) : k ∈ m.keys :=
  mem_keys_iff.mpr ⟨v, h⟩

theorem notMem_keys {m : FMap κ ν} {k : κ} : k ∉ m.keys ↔ m.get k = none := by
  rw [m.mem_keys, Option.not_isSome_iff_eq_none]

/-- Number of keys. -/
def size (m : FMap κ ν) : ℕ := m.keys.card

theorem size_le_of_get {m : FMap κ ν} {n : FMap κ μ}
    (h : ∀ k, (m.get k).isSome → (n.get k).isSome) : m.size ≤ n.size :=
  Finset.card_le_card fun k hk => (n.mem_keys k).mpr (h k ((m.mem_keys k).mp hk))

theorem size_eq_of_get {m : FMap κ ν} {n : FMap κ μ}
    (h : ∀ k, (m.get k).isSome ↔ (n.get k).isSome) : m.size = n.size :=
  le_antisymm (size_le_of_get fun k => (h k).mp) (size_le_of_get fun k => (h k).mpr)

theorem size_pos_of_get {m : FMap κ ν} {k : κ} {v : ν} (h : m.get k = some v) : 0 < m.size :=
  Finset.card_pos.mpr ⟨k, mem_keys_of_get h⟩

theorem size_eq_zero {m : FMap κ ν} : m.size = 0 ↔ ∀ k, m.get k = none := by
  rw [size, Finset.card_eq_zero, Finset.eq_empty_iff_forall_notMem]
  exact forall_congr' fun k => notMem_keys

/-- The function `f` as a finite map, given a finite set `s` that covers its support. -/
def tabulate (s : Finset κ) (f : κ → Option ν) (h : ∀ k, (f k).isSome → k ∈ s) : FMap κ ν where
  get := f
  keys := s.filter fun k => (f k).isSome
  mem_keys k := by
    rw [Finset.mem_filter]
    exact ⟨And.right, fun hk => ⟨h k hk, hk⟩⟩

@[simp] theorem get_tabulate (s : Finset κ) (f : κ → Option ν) (h) (k : κ) :
    (tabulate s f h).get k = f k := rfl

/-- The map with no key. -/
def empty : FMap κ ν := tabulate ∅ (fun _ => none) (by simp)

@[simp] theorem get_empty (k : κ) : (empty : FMap κ ν).get k = none := rfl

@[simp] theorem keys_empty : (empty : FMap κ ν).keys = ∅ := rfl

@[simp] theorem size_empty : (empty : FMap κ ν).size = 0 := rfl

/-- Keep the rows `p` accepts (`retain`, or the rows a `DELETE … WHERE` leaves). -/
def filter (m : FMap κ ν) (p : κ → ν → Bool) : FMap κ ν :=
  tabulate m.keys (fun k => (m.get k).filter (p k)) (by
    intro k hk
    cases hm : m.get k with
    | none => simp [hm] at hk
    | some v => exact mem_keys_of_get hm)

@[simp] theorem get_filter (m : FMap κ ν) (p : κ → ν → Bool) (k : κ) :
    (m.filter p).get k = (m.get k).filter (p k) := rfl

theorem get_filter_eq_some {m : FMap κ ν} {p : κ → ν → Bool} {k : κ} {v : ν} :
    (m.filter p).get k = some v ↔ m.get k = some v ∧ p k v = true := by
  rw [get_filter, Option.filter_eq_some_iff]

/-- A filter absorbs a weaker one before it. -/
theorem filter_filter_of_imp {m : FMap κ ν} {p q : κ → ν → Bool}
    (h : ∀ k v, q k v = true → p k v = true) : (m.filter p).filter q = m.filter q := by
  refine ext fun k => Option.ext fun v => ?_
  rw [get_filter_eq_some, get_filter_eq_some, get_filter_eq_some]
  exact ⟨fun hv => ⟨hv.1.1, hv.2⟩, fun hv => ⟨⟨hv.1, h k v hv.2⟩, hv.2⟩⟩

theorem size_filter_le (m : FMap κ ν) (p : κ → ν → Bool) : (m.filter p).size ≤ m.size :=
  size_le_of_get fun k hk => by
    obtain ⟨v, hv⟩ := Option.isSome_iff_exists.mp hk
    rw [(get_filter_eq_some.mp hv).1]; rfl

/-- Rewrite every row by `f`, dropping those it maps to nothing. -/
def filterMap (m : FMap κ ν) (f : κ → ν → Option μ) : FMap κ μ :=
  tabulate m.keys (fun k => (m.get k).bind (f k)) (by
    intro k hk
    cases hm : m.get k with
    | none => simp [hm] at hk
    | some v => exact mem_keys_of_get hm)

@[simp] theorem get_filterMap (m : FMap κ ν) (f : κ → ν → Option μ) (k : κ) :
    (m.filterMap f).get k = (m.get k).bind (f k) := rfl

/-- The images of the rows under `f`. -/
def values [DecidableEq β] (m : FMap κ ν) (f : κ → ν → β) : Finset β :=
  m.keys.biUnion fun k => ((m.get k).map (f k)).toFinset

theorem mem_values [DecidableEq β] {m : FMap κ ν} {f : κ → ν → β} {b : β} :
    b ∈ m.values f ↔ ∃ k v, m.get k = some v ∧ f k v = b := by
  simp only [values, Finset.mem_biUnion, Option.mem_toFinset, Option.mem_def, Option.map_eq_some_iff]
  constructor
  · rintro ⟨k, _, v, hv, hb⟩; exact ⟨k, v, hv, hb⟩
  · rintro ⟨k, v, hv, hb⟩; exact ⟨k, mem_keys_of_get hv, v, hv, hb⟩

variable [DecidableEq κ]

/-- One row written: `some v` inserts or updates it, `none` deletes it. -/
def set (m : FMap κ ν) (k : κ) (o : Option ν) : FMap κ ν :=
  tabulate (insert k m.keys) (fun j => if j = k then o else m.get j) (by
    intro j hj
    by_cases h : j = k
    · exact Finset.mem_insert.mpr (Or.inl h)
    · rw [if_neg h] at hj
      exact Finset.mem_insert.mpr (Or.inr ((m.mem_keys j).mpr hj)))

theorem get_set (m : FMap κ ν) (k j : κ) (o : Option ν) :
    (m.set k o).get j = if j = k then o else m.get j := rfl

@[simp] theorem get_set_self (m : FMap κ ν) (k : κ) (o : Option ν) : (m.set k o).get k = o := by
  simp [get_set]

theorem get_set_ne (m : FMap κ ν) {k j : κ} (o : Option ν) (h : j ≠ k) :
    (m.set k o).get j = m.get j := by
  simp [get_set, h]

@[simp] theorem set_get_self (m : FMap κ ν) (k : κ) : m.set k (m.get k) = m :=
  ext fun j => by
    rw [get_set]
    split
    · rename_i h; rw [h]
    · rfl

@[simp] theorem set_set (m : FMap κ ν) (k : κ) (o o' : Option ν) :
    (m.set k o).set k o' = m.set k o' :=
  ext fun j => by simp only [get_set]; split <;> rfl

theorem keys_set_some (m : FMap κ ν) (k : κ) (v : ν) :
    (m.set k (some v)).keys = insert k m.keys := by
  ext j
  rw [(m.set k (some v)).mem_keys, get_set, Finset.mem_insert, m.mem_keys]
  by_cases h : j = k <;> simp [h]

theorem keys_set_none (m : FMap κ ν) (k : κ) : (m.set k none).keys = m.keys.erase k := by
  ext j
  rw [(m.set k none).mem_keys, get_set, Finset.mem_erase, m.mem_keys]
  by_cases h : j = k <;> simp [h]

/-- Inserting a new key adds one row. -/
theorem size_set_new {m : FMap κ ν} {k : κ} (v : ν) (h : m.get k = none) :
    (m.set k (some v)).size = m.size + 1 := by
  rw [size, keys_set_some, Finset.card_insert_of_notMem (notMem_keys.mpr h), size]

/-- Updating a held key keeps the number of rows. -/
theorem size_set_held {m : FMap κ ν} {k : κ} {w : ν} (v : ν) (h : m.get k = some w) :
    (m.set k (some v)).size = m.size := by
  rw [size, keys_set_some, Finset.insert_eq_of_mem (mem_keys_of_get h), size]

/-- Deleting a held key takes one row away. -/
theorem size_set_none {m : FMap κ ν} {k : κ} {w : ν} (h : m.get k = some w) :
    (m.set k none).size = m.size - 1 := by
  rw [size, keys_set_none, Finset.card_erase_of_mem (mem_keys_of_get h), size]

theorem size_set_le (m : FMap κ ν) (k : κ) (o : Option ν) : (m.set k o).size ≤ m.size + 1 := by
  cases o with
  | none => rw [size, keys_set_none]; exact (Finset.card_erase_le).trans (Nat.le_succ _)
  | some v => rw [size, keys_set_some]; exact Finset.card_insert_le _ _

/-- The writes `w` laid over `m`: a key of `w` takes what `w` says, a deletion included. -/
def patch (m : FMap κ ν) (w : FMap κ (Option ν)) : FMap κ ν :=
  tabulate (m.keys ∪ w.keys) (fun k => (w.get k).getD (m.get k)) (by
    intro k hk
    cases hw : w.get k with
    | none =>
      rw [hw] at hk
      exact Finset.mem_union_left _ ((m.mem_keys k).mpr hk)
    | some o => exact Finset.mem_union_right _ (mem_keys_of_get hw))

@[simp] theorem get_patch (m : FMap κ ν) (w : FMap κ (Option ν)) (k : κ) :
    (m.patch w).get k = (w.get k).getD (m.get k) := rfl

@[simp] theorem patch_empty (m : FMap κ ν) : m.patch empty = m := ext fun _ => rfl

/-- `w'` laid over `w`. -/
def merge (w w' : FMap κ μ) : FMap κ μ :=
  tabulate (w.keys ∪ w'.keys) (fun k => (w'.get k).or (w.get k)) (by
    intro k hk
    rcases hw : w'.get k with _ | o
    · rw [hw, Option.none_or] at hk
      exact Finset.mem_union_left _ ((w.mem_keys k).mpr hk)
    · exact Finset.mem_union_right _ (mem_keys_of_get hw))

@[simp] theorem get_merge (w w' : FMap κ μ) (k : κ) :
    (w.merge w').get k = (w'.get k).or (w.get k) := rfl

@[simp] theorem empty_merge (w : FMap κ μ) : empty.merge w = w := ext fun k => by simp

/-- Writes laid over writes are written one after the other. -/
theorem patch_merge (m : FMap κ ν) (w w' : FMap κ (Option ν)) :
    m.patch (w.merge w') = (m.patch w).patch w' :=
  ext fun k => by
    rw [get_patch, get_patch, get_patch, get_merge]
    cases w'.get k <;> rfl

/-- One row written. -/
def one (k : κ) (o : μ) : FMap κ μ := empty.set k (some o)

@[simp] theorem get_one (k j : κ) (o : μ) : (one k o).get j = if j = k then some o else none := rfl

theorem patch_one (m : FMap κ ν) (k : κ) (o : Option ν) : m.patch (one k o) = m.set k o :=
  ext fun j => by
    rw [get_patch, get_one, get_set]
    split <;> rfl

/-- `UPDATE` of the row at `k`: nothing is written when there is none. -/
def updateAt (k : κ) (v : ν) (m : FMap κ ν) : FMap κ (Option ν) :=
  if (m.get k).isSome then one k (some v) else empty

/-- `INSERT` of a row at `k`: nothing is written, and the statement fails, when there is one. -/
def insertAt (k : κ) (v : ν) (m : FMap κ ν) : FMap κ (Option ν) :=
  if (m.get k).isSome then empty else one k (some v)

omit [DecidableEq κ] in
/-- `DELETE … WHERE p`. -/
def deleteWhere (p : κ → ν → Bool) (m : FMap κ ν) : FMap κ (Option ν) :=
  m.filterMap fun k v => if p k v then some none else none

omit [DecidableEq κ] in
theorem get_deleteWhere {p : κ → ν → Bool} {m : FMap κ ν} {k : κ} {o : Option ν} :
    (deleteWhere p m).get k = some o ↔ o = none ∧ ∃ v, m.get k = some v ∧ p k v = true := by
  rw [deleteWhere, get_filterMap, Option.bind_eq_some_iff]
  constructor
  · rintro ⟨v, hv, ho⟩
    split at ho
    · rename_i hp
      exact ⟨(Option.some.inj ho).symm, v, hv, hp⟩
    · exact absurd ho (by simp)
  · rintro ⟨rfl, v, hv, hp⟩
    exact ⟨v, hv, if_pos hp⟩

/-- What a `DELETE` leaves. -/
theorem patch_deleteWhere (p : κ → ν → Bool) (m : FMap κ ν) :
    m.patch (deleteWhere p m) = m.filter fun k v => !p k v := by
  refine ext fun k => ?_
  rw [get_patch, get_filter, deleteWhere, get_filterMap]
  rcases m.get k with _ | v
  · rfl
  · rcases hp : p k v with _ | _ <;> simp [Option.filter, hp]

omit [DecidableEq κ] in
/-- `UPDATE … WHERE p`. -/
def updateWhere (p : κ → ν → Bool) (f : ν → ν) (m : FMap κ ν) : FMap κ (Option ν) :=
  m.filterMap fun k v => if p k v then some (some (f v)) else none

omit [DecidableEq κ] in
theorem get_updateWhere {p : κ → ν → Bool} {f : ν → ν} {m : FMap κ ν} {k : κ} {o : Option ν} :
    (updateWhere p f m).get k = some o ↔ ∃ v, m.get k = some v ∧ p k v = true ∧ o = some (f v) := by
  rw [updateWhere, get_filterMap, Option.bind_eq_some_iff]
  constructor
  · rintro ⟨v, hv, ho⟩
    split at ho
    · rename_i hp
      exact ⟨v, hv, hp, (Option.some.inj ho).symm⟩
    · exact absurd ho (by simp)
  · rintro ⟨v, hv, hp, rfl⟩
    exact ⟨v, hv, if_pos hp⟩

/-- An `UPDATE` of one row, there and accepted. -/
theorem updateWhere_eq_one {p : κ → ν → Bool} {f : ν → ν} {m : FMap κ ν} {k : κ} {v : ν}
    (hv : m.get k = some v) (hp : p k v = true) (hother : ∀ j w, j ≠ k → p j w = false) :
    updateWhere p f m = one k (some (f v)) := by
  refine ext fun j => ?_
  rw [updateWhere, get_filterMap, get_one]
  by_cases hj : j = k
  · subst hj
    rw [hv, if_pos rfl]
    exact if_pos hp
  · rw [if_neg hj]
    rcases m.get j with _ | w
    · rfl
    · rw [Option.bind_some, hother j w hj]
      rfl

omit [DecidableEq κ] in
/-- `SELECT … WHERE p FOR UPDATE`: the rows are written as they are, and so held. -/
def touch (p : κ → ν → Bool) (m : FMap κ ν) : FMap κ (Option ν) := updateWhere p id m

omit [DecidableEq κ] in
theorem get_touch {p : κ → ν → Bool} {m : FMap κ ν} {k : κ} {o : Option ν} :
    (touch p m).get k = some o ↔ ∃ v, m.get k = some v ∧ p k v = true ∧ o = some v := get_updateWhere

/-- Rows held are rows unchanged. -/
theorem patch_touch (p : κ → ν → Bool) (m : FMap κ ν) : m.patch (touch p m) = m := by
  refine ext fun k => ?_
  rw [get_patch]
  rcases ho : (touch p m).get k with _ | o
  · rfl
  · obtain ⟨v, hv, _, rfl⟩ := get_touch.mp ho
    rw [hv]
    rfl

omit [DecidableEq κ] in
/-- What the rows add up to (`SUM`), `f` being what each counts for. -/
def sum (f : κ → ν → ℕ) (m : FMap κ ν) : ℕ := ∑ k ∈ m.keys, (m.get k).elim 0 (f k)

omit [DecidableEq κ] in
theorem sum_of_subset {f : κ → ν → ℕ} {m : FMap κ ν} {s : Finset κ} (h : m.keys ⊆ s) :
    m.sum f = ∑ k ∈ s, (m.get k).elim 0 (f k) :=
  Finset.sum_subset h fun k _ hk => by rw [notMem_keys.mp hk]; rfl

theorem keys_patch_subset {m : FMap κ ν} {w : FMap κ (Option ν)} :
    (m.patch w).keys ⊆ m.keys ∪ w.keys := Finset.filter_subset _ _

/-- Writes that lower what each row counts for lower the sum. -/
theorem sum_patch_le {f : κ → ν → ℕ} {m : FMap κ ν} {w : FMap κ (Option ν)}
    (h : ∀ k o, w.get k = some o → o.elim 0 (f k) ≤ (m.get k).elim 0 (f k)) :
    (m.patch w).sum f ≤ m.sum f := by
  rw [sum_of_subset keys_patch_subset, sum_of_subset Finset.subset_union_left]
  refine Finset.sum_le_sum fun k _ => ?_
  rw [get_patch]
  rcases hw : w.get k with _ | o
  · exact le_rfl
  · exact h k o hw

theorem sum_patch_eq {f : κ → ν → ℕ} {m : FMap κ ν} {w : FMap κ (Option ν)}
    (h : ∀ k o, w.get k = some o → o.elim 0 (f k) = (m.get k).elim 0 (f k)) :
    (m.patch w).sum f = m.sum f := by
  rw [sum_of_subset keys_patch_subset, sum_of_subset Finset.subset_union_left]
  refine Finset.sum_congr rfl fun k _ => ?_
  rw [get_patch]
  rcases hw : w.get k with _ | o
  · rfl
  · exact h k o hw

/-- Writes to other rows add up: each changes the sum by what it changes alone. -/
theorem sum_patch_patch {f : κ → ν → ℕ} {m : FMap κ ν} {w w' : FMap κ (Option ν)}
    (h : ∀ k o, w.get k = some o → w'.get k = none) :
    ((m.patch w').patch w).sum f + m.sum f = (m.patch w).sum f + (m.patch w').sum f := by
  set s := m.keys ∪ w.keys ∪ w'.keys with hs
  have hm : m.keys ⊆ s := fun k hk => by simp [hs, hk]
  have hw : (m.patch w).keys ⊆ s := fun k hk => by
    have := keys_patch_subset hk
    simp only [hs, Finset.mem_union] at *
    exact Or.inl this
  have hw' : (m.patch w').keys ⊆ s := fun k hk => by
    have := keys_patch_subset hk
    simp only [hs, Finset.mem_union] at *
    exact this.elim (fun h => Or.inl (Or.inl h)) Or.inr
  have hboth : ((m.patch w').patch w).keys ⊆ s := fun k hk => by
    have := keys_patch_subset hk
    rcases Finset.mem_union.mp this with hk | hk
    · exact hw' hk
    · simp [hs, hk]
  rw [sum_of_subset hm, sum_of_subset hw, sum_of_subset hw', sum_of_subset hboth,
    ← Finset.sum_add_distrib, ← Finset.sum_add_distrib]
  refine Finset.sum_congr rfl fun k _ => ?_
  simp only [get_patch]
  rcases hk : w.get k with _ | o
  · exact Nat.add_comm _ _
  · rw [h k o hk]
    rfl

/-- A map of maps as one map on pairs of keys. -/
def flat {ι : Type*} [DecidableEq ι] (m : FMap κ (FMap ι ν)) : FMap (κ × ι) ν :=
  tabulate (m.keys.biUnion fun k => ((m.get k).map fun g => g.keys.image (k, ·)).getD ∅)
    (fun p => (m.get p.1).bind (·.get p.2)) (by
      rintro ⟨k, i⟩ h
      obtain ⟨v, hv⟩ := Option.isSome_iff_exists.mp h
      obtain ⟨g, hg, hi⟩ := Option.bind_eq_some_iff.mp hv
      refine Finset.mem_biUnion.mpr ⟨k, mem_keys_of_get hg, ?_⟩
      simp only [hg, Option.map_some, Option.getD_some]
      exact Finset.mem_image_of_mem _ (mem_keys_of_get hi))

@[simp] theorem get_flat {ι : Type*} [DecidableEq ι] (m : FMap κ (FMap ι ν)) (p : κ × ι) :
    m.flat.get p = (m.get p.1).bind (·.get p.2) := rfl

/-- The rows of `m` under one first key. -/
def under {ι : Type*} [DecidableEq ι] (m : FMap (κ × ι) ν) (k : κ) : FMap ι ν :=
  tabulate ((m.keys.filter (·.1 = k)).image Prod.snd) (fun i => m.get (k, i)) (by
    intro i hi
    exact Finset.mem_image.mpr
      ⟨(k, i), Finset.mem_filter.mpr ⟨(m.mem_keys _).mpr hi, rfl⟩, rfl⟩)

@[simp] theorem get_under {ι : Type*} [DecidableEq ι] (m : FMap (κ × ι) ν) (k : κ) (i : ι) :
    (m.under k).get i = m.get (k, i) := rfl

theorem under_set_self {ι : Type*} [DecidableEq ι] (m : FMap (κ × ι) ν) (k : κ) (i : ι)
    (o : Option ν) : (m.set (k, i) o).under k = (m.under k).set i o :=
  ext fun j => by
    rw [get_under, get_set, get_set, get_under]
    by_cases h : j = i <;> simp [h]

theorem under_set_ne {ι : Type*} [DecidableEq ι] (m : FMap (κ × ι) ν) {k a : κ} (i : ι)
    (o : Option ν) (h : a ≠ k) : (m.set (k, i) o).under a = m.under a :=
  ext fun j => by
    rw [get_under, get_set, if_neg (fun e => h (Prod.mk.inj e).1), get_under]

theorem size_under_filter_le {ι : Type*} [DecidableEq ι] (m : FMap (κ × ι) ν)
    (p : κ × ι → ν → Bool) (k : κ) : ((m.filter p).under k).size ≤ (m.under k).size := by
  have h : (m.filter p).under k = (m.under k).filter fun i v => p (k, i) v := ext fun _ => rfl
  rw [h]
  exact size_filter_le _ _

theorem size_under_le {ι : Type*} [DecidableEq ι] (m : FMap (κ × ι) ν) (k : κ) :
    (m.under k).size ≤ m.size := by
  refine Finset.card_le_card_of_injOn (k, ·) (fun i hi => ?_) fun _ _ _ _ h => (Prod.mk.inj h).2
  have hi : ((m.under k).get i).isSome := ((m.under k).mem_keys i).mp hi
  exact (m.mem_keys (k, i)).mpr hi

/-- The rows of `m` under `k`, none when it has no group there. -/
def group (m : FMap κ (FMap μ ν)) (k : κ) : FMap μ ν := (m.get k).getD empty

omit [DecidableEq κ] in
theorem get_group (m : FMap κ (FMap μ ν)) (k : κ) (i : μ) :
    (m.group k).get i = (m.get k).bind (·.get i) := by
  rw [group]
  cases m.get k <;> rfl

/-- A map of maps has as many rows as its groups have together. -/
theorem size_flat {ι : Type*} [DecidableEq ι] (m : FMap κ (FMap ι ν)) {s : Finset κ}
    (hs : m.keys ⊆ s) : m.flat.size = ∑ k ∈ s, (m.group k).size := by
  have hfiber : ∀ k, (m.flat.keys.filter (·.1 = k)).card = (m.group k).size := by
    intro k
    rw [size, ← Finset.card_image_of_injOn (s := (m.group k).keys) (f := (k, ·))
      (fun _ _ _ _ h => (Prod.mk.inj h).2)]
    congr 1
    ext ⟨a, i⟩
    simp only [Finset.mem_image, Finset.mem_filter, mem_keys, get_group, get_flat, Prod.mk.injEq]
    constructor
    · rintro ⟨hj, rfl⟩; exact ⟨i, hj, rfl, rfl⟩
    · rintro ⟨j, hj, rfl, rfl⟩; exact ⟨hj, rfl⟩
  have hmaps : ∀ p ∈ m.flat.keys, p.1 ∈ s := by
    rintro ⟨k, i⟩ hp
    obtain ⟨v, hv⟩ := mem_keys_iff.mp hp
    obtain ⟨g, hg, _⟩ := Option.bind_eq_some_iff.mp hv
    exact hs (mem_keys_of_get hg)
  rw [size, Finset.card_eq_sum_card_fiberwise (f := Prod.fst) (t := s) hmaps]
  exact Finset.sum_congr rfl fun k _ => hfiber k

/-- Rewriting one group changes the number of rows by that group's change. -/
theorem size_flat_set {ι : Type*} [DecidableEq ι] (m : FMap κ (FMap ι ν)) (k : κ)
    (o : Option (FMap ι ν)) :
    (m.set k o).flat.size + (m.group k).size = m.flat.size + (o.getD empty).size := by
  have hk : k ∈ insert k m.keys := Finset.mem_insert_self k _
  have hset : (m.set k o).keys ⊆ insert k m.keys := by
    intro j hj
    obtain ⟨g, hg⟩ := mem_keys_iff.mp hj
    rw [get_set] at hg
    by_cases h : j = k
    · exact Finset.mem_insert.mpr (Or.inl h)
    · rw [if_neg h] at hg
      exact Finset.mem_insert.mpr (Or.inr (mem_keys_of_get hg))
  have hrest : ∑ j ∈ (insert k m.keys).erase k, ((m.set k o).group j).size
      = ∑ j ∈ (insert k m.keys).erase k, (m.group j).size :=
    Finset.sum_congr rfl fun j hj => by
      rw [group, get_set_ne m o (Finset.ne_of_mem_erase hj), group]
  rw [size_flat _ hset, size_flat m (Finset.subset_insert k _),
    ← Finset.add_sum_erase _ _ hk, ← Finset.add_sum_erase _ _ hk, hrest, group, get_set_self]
  omega

/-- A group that goes when it has no row left. -/
def unlessEmpty (m : FMap μ ν) : Option (FMap μ ν) := if m.size = 0 then none else some m

omit [DecidableEq κ] in
@[simp] theorem getD_unlessEmpty (m : FMap μ ν) : (unlessEmpty m).getD empty = m := by
  rw [unlessEmpty]
  split
  · rename_i h
    exact ext fun k => (size_eq_zero.mp h k).symm
  · rfl

omit [DecidableEq κ] in
theorem unlessEmpty_eq_some {m g : FMap μ ν} (h : unlessEmpty m = some g) : g = m ∧ 0 < g.size := by
  rw [unlessEmpty] at h
  split at h
  · exact absurd h (by simp)
  · obtain rfl := Option.some.inj h
    exact ⟨rfl, by omega⟩

omit [DecidableEq κ] in
theorem bind_unlessEmpty (m : FMap μ ν) (i : μ) : (unlessEmpty m).bind (·.get i) = m.get i := by
  conv_rhs => rw [← getD_unlessEmpty m]
  cases unlessEmpty m <;> rfl

end FMap

/-- An order to enumerate finite sets in, about which nothing more is known: the order a hash map
    iterates in, or a query without `ORDER BY` answers in. -/
structure Listing (κ : Type*) where
  list : Finset κ → List κ
  nodup : ∀ s, (list s).Nodup
  mem_list : ∀ s k, k ∈ list s ↔ k ∈ s

/-- Of a duplicate-free list, what is kept when one element alone is. -/
theorem filterMap_eq_singleton {α : Type*} {f : α → Option β} {a : α} {b : β} :
    ∀ {l : List α}, l.Nodup → a ∈ l → f a = some b → (∀ x ∈ l, x ≠ a → f x = none) →
      l.filterMap f = [b] := by
  intro l
  induction l with
  | nil => intro _ ha; exact absurd ha List.not_mem_nil
  | cons x l ih =>
    intro hnd ha hb hrest
    obtain ⟨hx, hnd⟩ := List.nodup_cons.mp hnd
    rcases List.mem_cons.mp ha with rfl | ha
    · have hnil : l.filterMap f = [] := List.filterMap_eq_nil_iff.mpr fun y hy =>
        hrest y (List.mem_cons_of_mem _ hy) (fun h => hx (h ▸ hy))
      rw [List.filterMap_cons, hb, hnil]
    · have hne : x ≠ a := fun h => hx (h ▸ ha)
      rw [List.filterMap_cons, hrest x List.mem_cons_self hne]
      exact ih hnd ha hb fun y hy => hrest y (List.mem_cons_of_mem _ hy)

/-- Every type has a listing. -/
noncomputable def Listing.any (κ : Type*) : Listing κ :=
  ⟨Finset.toList, Finset.nodup_toList, fun _ _ => Finset.mem_toList⟩

/-- The first least element of a list under `lt` (`Iterator::min_by_key`). -/
def firstMin {α : Type*} (lt : α → α → Bool) : List α → Option α
  | [] => none
  | x :: xs => some (xs.foldl (fun m y => if lt y m then y else m) x)

section firstMin

variable {α : Type*} {lt : α → α → Bool}

theorem foldl_min_mem : ∀ (xs : List α) (x : α),
    xs.foldl (fun m y => if lt y m then y else m) x ∈ x :: xs
  | [], x => List.mem_cons_self
  | y :: ys, x => by
      rw [List.foldl_cons]
      rcases List.mem_cons.mp (foldl_min_mem ys (if lt y x then y else x)) with h | h
      · rw [h]
        split <;> simp
      · exact List.mem_cons_of_mem _ (List.mem_cons_of_mem _ h)

theorem irrefl_of_asymm (asymm : ∀ a b, lt a b → lt b a = false) (a : α) : lt a a = false := by
  by_contra h
  have h' : lt a a = true := by simpa using h
  exact h (asymm a a h')

/-- Nothing folded over is below the minimum kept, for an asymmetric `lt` whose complement is
    transitive. -/
theorem foldl_min_le (asymm : ∀ a b, lt a b → lt b a = false)
    (trans : ∀ a b c, lt b a = false → lt c b = false → lt c a = false) :
    ∀ (xs : List α) (x : α), ∀ y ∈ x :: xs,
      lt y (xs.foldl (fun m y => if lt y m then y else m) x) = false
  | [], x, y, hy => by
      obtain rfl := List.mem_singleton.mp hy
      exact irrefl_of_asymm asymm y
  | z :: zs, x, y, hy => by
      rw [List.foldl_cons]
      have ih := foldl_min_le asymm trans zs (if lt z x then z else x)
      -- neither `x` nor `z` is below the head the fold goes on with
      have hx : lt x (if lt z x then z else x) = false := by
        split
        · rename_i hz; exact asymm _ _ hz
        · exact irrefl_of_asymm asymm x
      have hz : lt z (if lt z x then z else x) = false := by
        split
        · exact irrefl_of_asymm asymm z
        · rename_i hz; simpa using hz
      rcases List.mem_cons.mp hy with rfl | hy
      · exact trans _ _ _ (ih _ List.mem_cons_self) hx
      · rcases List.mem_cons.mp hy with rfl | hy
        · exact trans _ _ _ (ih _ List.mem_cons_self) hz
        · exact ih y (List.mem_cons_of_mem _ hy)

theorem firstMin_eq_none {l : List α} : firstMin lt l = none ↔ l = [] := by
  cases l <;> simp [firstMin]

theorem firstMin_mem {l : List α} {m : α} (h : firstMin lt l = some m) : m ∈ l := by
  cases l with
  | nil => simp [firstMin] at h
  | cons x xs =>
    obtain rfl := Option.some.inj h
    exact foldl_min_mem xs x

theorem firstMin_le (asymm : ∀ a b, lt a b → lt b a = false)
    (trans : ∀ a b c, lt b a = false → lt c b = false → lt c a = false)
    {l : List α} {m : α} (h : firstMin lt l = some m) : ∀ y ∈ l, lt y m = false := by
  cases l with
  | nil => simp [firstMin] at h
  | cons x xs =>
    obtain rfl := Option.some.inj h
    exact foldl_min_le asymm trans xs x

end firstMin

end FiniteMap
