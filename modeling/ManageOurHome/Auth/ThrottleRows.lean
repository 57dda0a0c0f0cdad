import ManageOurHome.Auth.Throttle

/-! @src apps/api/src/auth/throttle.rs | layer:refinement | family:rate-limit

    The table as flat rows. Grouping by address and caching the total are how the source answers
    « how many pairs does this address hold » quickly; what an operation does is one statement about
    the rows, keyed by (address, email). Each operation of `Table` is described here by the rows it
    leaves and the number of them it counts, so that later proofs never look into the groups. -/

namespace Home.Throttle

open FiniteMap

variable {A E : Type*} [DecidableEq A] [DecidableEq E]

/-- Whether a pair still counts at `now`. -/
def live (now : ℤ) (e : Entry) : Bool := !e.isStale now

namespace Table

/-- The pairs a table holds, whatever their grouping. -/
def rows (t : Table A E) : FMap (A × E) Entry := t.byIp.flat

theorem get_rows (t : Table A E) (ip : A) (email : E) : t.rows.get (ip, email) = t.get ip email := rfl

/-- The cached total is the number of rows, and no address is listed without a pair. -/
structure Counted (t : Table A E) : Prop where
  total_eq : t.total = t.rows.size
  no_empty : ∀ ip pairs, t.byIp.get ip = some pairs → 0 < pairs.size

theorem heldBy_eq (t : Table A E) (ip : A) : t.heldBy ip = (t.rows.under ip).size :=
  FMap.size_eq_of_get fun email => by
    rw [FMap.get_group, FMap.get_under]; rfl

/-- The number of rows is the sum of the groups' sizes. -/
theorem size_rows (t : Table A E) : t.rows.size = ∑ ip ∈ t.byIp.keys, t.heldBy ip :=
  FMap.size_flat t.byIp (Finset.Subset.refl _)

/-! ### The rows each operation leaves -/

theorem flat_put (byIp : FMap A (FMap E Entry)) (ip : A) (email : E) (e : Entry) :
    (put byIp ip email e).flat = byIp.flat.set (ip, email) (some e) :=
  FMap.ext fun ⟨a, f⟩ => by
    rw [FMap.get_flat, put, FMap.get_set, FMap.get_set, FMap.get_flat]
    by_cases ha : a = ip
    · subst ha
      rw [if_pos rfl, Option.bind_some, FMap.get_set, FMap.get_group]
      by_cases hf : f = email <;> simp [hf]
    · rw [if_neg ha, if_neg (fun h => ha (Prod.mk.inj h).1)]

theorem no_empty_put {byIp : FMap A (FMap E Entry)} (ip : A) (email : E) (e : Entry)
    (h : ∀ a g, byIp.get a = some g → 0 < g.size) :
    ∀ a g, (put byIp ip email e).get a = some g → 0 < g.size := by
  intro a g hg
  rw [put, FMap.get_set] at hg
  split at hg
  · obtain rfl := Option.some.inj hg
    exact FMap.size_pos_of_get (FMap.get_set_self _ email (some e))
  · exact h a g hg

omit [DecidableEq E] in
/-- Giving a group back, or nothing when it is empty, lists no address without a pair. -/
theorem no_empty_unlessEmpty {byIp : FMap A (FMap E Entry)} (ip : A) (left : FMap E Entry)
    (h : ∀ a g, byIp.get a = some g → 0 < g.size) :
    ∀ a g, (byIp.set ip left.unlessEmpty).get a = some g → 0 < g.size := by
  intro a g hg
  rw [FMap.get_set] at hg
  split at hg
  · exact (FMap.unlessEmpty_eq_some hg).2
  · exact h a g hg

theorem rows_load (t : Table A E) (ip : A) (email : E) (e : Entry) :
    (t.load ip email e).rows = t.rows.set (ip, email) (some e) := flat_put ..

theorem rows_remove (t : Table A E) (ip : A) (email : E) :
    (t.remove ip email).rows = t.rows.set (ip, email) none := by
  refine FMap.ext fun ⟨a, f⟩ => ?_
  rw [FMap.get_set, get_rows, get_rows, remove]
  cases hip : t.byIp.get ip with
  | none =>
    by_cases h : (a, f) = (ip, email)
    · obtain ⟨rfl, rfl⟩ := Prod.mk.inj h
      simp [get, hip]
    · rw [if_neg h]
  | some pairs =>
    simp only [get, FMap.get_set]
    by_cases ha : a = ip
    · subst ha
      rw [if_pos rfl, FMap.bind_unlessEmpty, FMap.get_set, hip]
      by_cases hf : f = email <;> simp [hf]
    · rw [if_neg ha, if_neg (fun h => ha (Prod.mk.inj h).1)]

theorem rows_reclaimAddress (t : Table A E) (ip : A) (now : ℤ) :
    (t.reclaimAddress ip now).rows = t.rows.filter fun k e => decide (k.1 ≠ ip) || live now e := by
  refine FMap.ext fun ⟨a, f⟩ => ?_
  rw [FMap.get_filter, get_rows, get_rows, reclaimAddress]
  cases hip : t.byIp.get ip with
  | none =>
    by_cases ha : a = ip
    · subst ha; simp [get, hip]
    · simp [ha]
  | some pairs =>
    simp only [get, FMap.get_set]
    by_cases ha : a = ip
    · subst ha
      rw [if_pos rfl, FMap.bind_unlessEmpty, FMap.get_filter, hip]
      simp [live]
    · simp [ha]

theorem flat_retainLive (byIp : FMap A (FMap E Entry)) (now : ℤ) :
    (retainLive byIp now).flat = byIp.flat.filter fun _ e => live now e := by
  refine FMap.ext fun ⟨a, f⟩ => ?_
  rw [FMap.get_filter, FMap.get_flat, FMap.get_flat, retainLive, FMap.get_filterMap]
  cases byIp.get a with
  | none => rfl
  | some pairs =>
    rw [Option.bind_some, FMap.bind_unlessEmpty]
    rfl

omit [DecidableEq A] [DecidableEq E] in
theorem no_empty_retainLive (byIp : FMap A (FMap E Entry)) (now : ℤ) :
    ∀ a g, (retainLive byIp now).get a = some g → 0 < g.size := by
  intro a g hg
  rw [retainLive, FMap.get_filterMap, Option.bind_eq_some_iff] at hg
  obtain ⟨pairs, _, hg⟩ := hg
  exact (FMap.unlessEmpty_eq_some hg).2

/-! ### The total each operation counts -/

theorem counted_default : (default : Table A E).Counted where
  total_eq := (FMap.size_eq_zero.mpr fun _ => rfl).symm
  no_empty _ _ h := absurd h (by simp [default])

theorem counted_load {t : Table A E} (h : t.Counted) (ip : A) (email : E) (e : Entry) :
    (t.load ip email e).Counted where
  total_eq := by
    rw [rows_load]
    cases hg : t.get ip email with
    | none => rw [FMap.size_set_new e (by exact hg), load, ← h.total_eq]; simp [hg]
    | some x => rw [FMap.size_set_held (w := x) e (by exact hg), load, ← h.total_eq]; simp [hg]
  no_empty := no_empty_put ip email e h.no_empty

theorem counted_remove {t : Table A E} (h : t.Counted) (ip : A) (email : E) :
    (t.remove ip email).Counted where
  total_eq := by
    rw [rows_remove]
    cases hg : t.get ip email with
    | none =>
      have hrows : t.rows.get (ip, email) = none := hg
      rw [show t.rows.set (ip, email) none = t.rows by rw [← hrows, FMap.set_get_self],
        ← h.total_eq, remove]
      cases hip : t.byIp.get ip with
      | none => rfl
      | some pairs =>
        have : pairs.get email = none := by simpa [get, hip] using hg
        simp [this]
    | some x =>
      rw [FMap.size_set_none (w := x) (by exact hg), ← h.total_eq, remove]
      obtain ⟨pairs, hip, hx⟩ := Option.bind_eq_some_iff.mp hg
      simp [hip, hx]
  no_empty := by
    rw [remove]
    cases hip : t.byIp.get ip with
    | none => simpa [hip] using h.no_empty
    | some pairs => exact no_empty_unlessEmpty ip _ h.no_empty

theorem counted_reclaimAddress {t : Table A E} (h : t.Counted) (ip : A) (now : ℤ) :
    (t.reclaimAddress ip now).Counted := by
  rw [reclaimAddress]
  cases hip : t.byIp.get ip with
  | none => exact h
  | some pairs =>
    refine ⟨?_, no_empty_unlessEmpty ip _ h.no_empty⟩
    have hsize := FMap.size_flat_set t.byIp ip (pairs.filter fun _ e => !e.isStale now).unlessEmpty
    have hle := FMap.size_filter_le pairs fun _ e => !e.isStale now
    rw [FMap.getD_unlessEmpty, FMap.group, hip, Option.getD_some] at hsize
    have htotal : t.total = t.byIp.flat.size := h.total_eq
    simp only [rows]
    omega

/-- Once swept, the table counts its live rows. -/
theorem counted_retainLive (byIp : FMap A (FMap E Entry)) (now : ℤ) :
    Counted (⟨retainLive byIp now,
      ∑ ip ∈ (retainLive byIp now).keys, ((retainLive byIp now).group ip).size⟩ : Table A E) where
  total_eq := (size_rows (⟨retainLive byIp now, 0⟩ : Table A E)).symm
  no_empty := no_empty_retainLive byIp now

end Table

end Home.Throttle
