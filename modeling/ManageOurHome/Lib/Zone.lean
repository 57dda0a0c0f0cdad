import Mathlib.Data.Int.Order.Basic
import Mathlib.Tactic.SplitIfs

/-! @lib time zones | layer:library | family:clock

    A time zone as the offset in force at each instant, changing at most once within reach of any of
    them: forward by exactly `shift`, which skips wall clocks, or back by at most `shift`, which
    repeats some. Instants and wall clocks are integers in one unit.

        instants   ──── a ────┤T├──── b ────      w names w - a if that is before T,
        b = a + shift:  T+a … T+b skipped          and w - b if that is not
        b < a:          T+b … T+a repeated

    `Zone.frame` is that picture; each fact about wall clocks is linear arithmetic in it. -/

/-- How the clocks may change: not at all, forward by `shift`, or back by no more. -/
def ClockJump (shift a b : ℤ) : Prop := b = a ∨ b = a + shift ∨ (b < a ∧ a ≤ b + shift)

instance (shift a b : ℤ) : Decidable (ClockJump shift a b) := by
  unfold ClockJump; infer_instance

/-- The one change within `reach` of `t`: from `a` to `b`, at `T`. -/
structure ClockFrame (offset : ℤ → ℤ) (width shift reach t T a b : ℤ) : Prop where
  jump : ClockJump shift a b
  boundA : -width ≤ a ∧ a ≤ width
  boundB : -width ≤ b ∧ b ≤ width
  offset_eq : ∀ u, t - reach ≤ u → u ≤ t + reach → offset u = if u < T then a else b

structure Zone where
  offset : ℤ → ℤ
  /-- No offset exceeds it. -/
  width : ℤ
  /-- How far the clocks go forward. -/
  shift : ℤ
  shift_pos : 0 < shift
  once : ∀ t, ∃ T a b, ClockFrame offset width shift (4 * (width + shift)) t T a b

namespace Zone

variable (z : Zone)

/-- The wall clock at `t`. -/
def local_ (t : ℤ) : ℤ := t + z.offset t

/-- The first instant the wall clock `w` names, if it names one. -/
def earliest (w : ℤ) : Option ℤ :=
  if z.local_ (w - z.offset (w - z.width)) = w then some (w - z.offset (w - z.width))
  else if z.local_ (w - z.offset (w + z.width)) = w then some (w - z.offset (w + z.width))
  else none

/-- The last instant the wall clock `w` names, if it names one. -/
def latest (w : ℤ) : Option ℤ :=
  if z.local_ (w - z.offset (w + z.width)) = w then some (w - z.offset (w + z.width))
  else if z.local_ (w - z.offset (w - z.width)) = w then some (w - z.offset (w - z.width))
  else none

/-- `w` as an instant: its first pass, or read with the offset before the gap it falls in. -/
def resolve (w : ℤ) : ℤ := (z.earliest w).getD (w - z.offset (w - z.width))

/-- Whether `t` follows a gap by less than its length. -/
def followsGap (t : ℤ) : Bool := (z.earliest (z.local_ t - z.shift)).isNone

variable {z}

/-! ### In a frame -/

section Frame

variable {t T a b : ℤ} (f : ClockFrame z.offset z.width z.shift (4 * (z.width + z.shift)) t T a b)

include f

theorem width_nonneg_of_frame : 0 ≤ z.width := by
  have := f.boundA
  omega

theorem offset_frame {u : ℤ} (h : t - 4 * (z.width + z.shift) ≤ u ∧ u ≤ t + 4 * (z.width + z.shift)) :
    (u < T ∧ z.offset u = a) ∨ (T ≤ u ∧ z.offset u = b) := by
  have := f.offset_eq u h.1 h.2
  split at this
  · exact Or.inl ⟨by assumption, this⟩
  · exact Or.inr ⟨by omega, this⟩

variable {w : ℤ} (hw : t - 2 * (z.width + z.shift) ≤ w ∧ w ≤ t + 2 * (z.width + z.shift))

include hw

theorem local_frame {o : ℤ} (ho : -z.width ≤ o ∧ o ≤ z.width) :
    z.local_ (w - o) = w ↔ (w - o < T ∧ o = a) ∨ (T ≤ w - o ∧ o = b) := by
  have := z.shift_pos
  have := width_nonneg_of_frame f
  have hu := offset_frame f (u := w - o) (by omega)
  rw [local_]
  omega

theorem earliest_frame :
    z.earliest w = if w - a < T then some (w - a) else if T ≤ w - b then some (w - b) else none := by
  have := z.shift_pos
  have := width_nonneg_of_frame f
  have ha := f.boundA
  have hb := f.boundB
  have hlo := offset_frame f (u := w - z.width) (by omega)
  have hhi := offset_frame f (u := w + z.width) (by omega)
  have hlo' := local_frame f hw (o := z.offset (w - z.width)) (by omega)
  have hhi' := local_frame f hw (o := z.offset (w + z.width)) (by omega)
  unfold earliest
  split_ifs <;> first | rfl | omega | (congr 1; omega)

theorem latest_frame :
    z.latest w = if T ≤ w - b then some (w - b) else if w - a < T then some (w - a) else none := by
  have := z.shift_pos
  have := width_nonneg_of_frame f
  have ha := f.boundA
  have hb := f.boundB
  have hlo := offset_frame f (u := w - z.width) (by omega)
  have hhi := offset_frame f (u := w + z.width) (by omega)
  have hlo' := local_frame f hw (o := z.offset (w - z.width)) (by omega)
  have hhi' := local_frame f hw (o := z.offset (w + z.width)) (by omega)
  unfold latest
  split_ifs <;> first | rfl | omega | (congr 1; omega)

theorem resolve_frame :
    z.resolve w = if w - a < T then w - a else if T ≤ w - b then w - b else w - a := by
  have := z.shift_pos
  have := width_nonneg_of_frame f
  have ha := f.boundA
  have hb := f.boundB
  have hlo := offset_frame f (u := w - z.width) (by omega)
  rw [resolve, earliest_frame f hw]
  split_ifs <;> simp only [Option.getD_some, Option.getD_none]
  omega

end Frame

/-! ### Instants and the wall clocks that name them -/

theorem width_nonneg (z : Zone) : 0 ≤ z.width := by
  obtain ⟨T, a, b, f⟩ := z.once 0
  exact width_nonneg_of_frame f

theorem offset_bound (z : Zone) (t : ℤ) : -z.width ≤ z.offset t ∧ z.offset t ≤ z.width := by
  obtain ⟨T, a, b, f⟩ := z.once t
  have := z.shift_pos
  have := z.width_nonneg
  have ha := f.boundA
  have hb := f.boundB
  have := offset_frame f (u := t) (by omega)
  omega

/-- The instants a wall clock names, in its frame. -/
theorem names_frame {t T a b w u : ℤ}
    (f : ClockFrame z.offset z.width z.shift (4 * (z.width + z.shift)) t T a b)
    (hw : t - 2 * (z.width + z.shift) ≤ w ∧ w ≤ t + 2 * (z.width + z.shift)) :
    z.local_ u = w ↔ (u < T ∧ u = w - a) ∨ (T ≤ u ∧ u = w - b) := by
  have := z.shift_pos
  have := z.width_nonneg
  have ha := f.boundA
  have hb := f.boundB
  have hu := z.offset_bound u
  constructor
  · intro h
    have hloc : u + z.offset u = w := h
    have := offset_frame f (u := u) (by omega)
    omega
  · intro h
    have := offset_frame f (u := u) (by omega)
    rw [local_]
    omega

theorem earliest_eq_some {w t : ℤ} :
    z.earliest w = some t ↔ z.local_ t = w ∧ ∀ u, z.local_ u = w → t ≤ u := by
  obtain ⟨T, a, b, f⟩ := z.once w
  have hw : w - 2 * (z.width + z.shift) ≤ w ∧ w ≤ w + 2 * (z.width + z.shift) := by
    have := z.shift_pos
    have := z.width_nonneg
    omega
  rw [earliest_frame f hw]
  simp only [names_frame f hw]
  constructor
  · intro h
    split_ifs at h <;> obtain rfl := Option.some.inj h <;> refine ⟨by omega, fun u hu => by omega⟩
  · rintro ⟨ht, hmin⟩
    have hA := hmin (w - a)
    split_ifs <;> first | omega | (congr 1; omega)

theorem latest_eq_some {w t : ℤ} :
    z.latest w = some t ↔ z.local_ t = w ∧ ∀ u, z.local_ u = w → u ≤ t := by
  obtain ⟨T, a, b, f⟩ := z.once w
  have hw : w - 2 * (z.width + z.shift) ≤ w ∧ w ≤ w + 2 * (z.width + z.shift) := by
    have := z.shift_pos
    have := z.width_nonneg
    omega
  rw [latest_frame f hw]
  simp only [names_frame f hw]
  constructor
  · intro h
    split_ifs at h <;> obtain rfl := Option.some.inj h <;> refine ⟨by omega, fun u hu => by omega⟩
  · rintro ⟨ht, hmax⟩
    have hB := hmax (w - b)
    split_ifs <;> first | omega | (congr 1; omega)

/-- The wall clock at an instant names it, and at most one instant before it, by at most `shift`. -/
theorem earliest_local (z : Zone) (t : ℤ) :
    ∃ first, z.earliest (z.local_ t) = some first ∧ first ≤ t ∧ t ≤ first + z.shift := by
  obtain ⟨T, a, b, f⟩ := z.once (z.local_ t)
  have := z.shift_pos
  have := z.width_nonneg
  have hw : z.local_ t - 2 * (z.width + z.shift) ≤ z.local_ t ∧
      z.local_ t ≤ z.local_ t + 2 * (z.width + z.shift) := by omega
  have hself := (names_frame f hw (u := t)).mp rfl
  have hjump := f.jump
  unfold ClockJump at hjump
  rw [earliest_frame f hw]
  split_ifs with h1 h2
  · exact ⟨_, rfl, by omega, by omega⟩
  · exact ⟨_, rfl, by omega, by omega⟩
  · omega

theorem latest_local (z : Zone) (t : ℤ) :
    ∃ last, z.latest (z.local_ t) = some last ∧ t ≤ last ∧ last ≤ t + z.shift := by
  obtain ⟨T, a, b, f⟩ := z.once (z.local_ t)
  have := z.shift_pos
  have := z.width_nonneg
  have hw : z.local_ t - 2 * (z.width + z.shift) ≤ z.local_ t ∧
      z.local_ t ≤ z.local_ t + 2 * (z.width + z.shift) := by omega
  have hself := (names_frame f hw (u := t)).mp rfl
  have hjump := f.jump
  unfold ClockJump at hjump
  rw [latest_frame f hw]
  split_ifs with h1 h2
  · exact ⟨_, rfl, by omega, by omega⟩
  · exact ⟨_, rfl, by omega, by omega⟩
  · omega

/-- A wall clock names two instants at most. -/
theorem eq_earliest_or_latest {t x y : ℤ} (hx : z.earliest (z.local_ t) = some x)
    (hy : z.latest (z.local_ t) = some y) : t = x ∨ t = y := by
  obtain ⟨T, a, b, f⟩ := z.once (z.local_ t)
  have hw : z.local_ t - 2 * (z.width + z.shift) ≤ z.local_ t ∧
      z.local_ t ≤ z.local_ t + 2 * (z.width + z.shift) := by
    have := z.shift_pos
    have := z.width_nonneg
    omega
  have hself := (names_frame f hw (u := t)).mp rfl
  rw [earliest_frame f hw] at hx
  rw [latest_frame f hw] at hy
  split_ifs at hx hy <;> obtain rfl := Option.some.inj hx <;> obtain rfl := Option.some.inj hy <;> omega

theorem earliest_eq_none {w : ℤ} : z.earliest w = none ↔ ∀ t, z.local_ t ≠ w := by
  constructor
  · rintro h t rfl
    obtain ⟨first, hfirst, _⟩ := z.earliest_local t
    exact absurd (h.symm.trans hfirst) (by simp)
  · intro h
    rcases he : z.earliest w with _ | t
    · rfl
    · exact absurd (earliest_eq_some.mp he).1 (h t)

/-! ### Wall clocks resolved -/

theorem resolve_of_earliest {w t : ℤ} (h : z.earliest w = some t) : z.resolve w = t := by
  rw [resolve, h, Option.getD_some]

theorem local_resolve {w : ℤ} (h : z.earliest w ≠ none) : z.local_ (z.resolve w) = w := by
  obtain ⟨t, ht⟩ := Option.ne_none_iff_exists'.mp h
  rw [resolve_of_earliest ht]
  exact (earliest_eq_some.mp ht).1

theorem resolve_bound (z : Zone) (w : ℤ) : w - z.width ≤ z.resolve w ∧ z.resolve w ≤ w + z.width := by
  obtain ⟨T, a, b, f⟩ := z.once w
  have := z.shift_pos
  have := z.width_nonneg
  have ha := f.boundA
  have hb := f.boundB
  rw [resolve_frame f (by omega)]
  split_ifs <;> omega

/-- Wall clocks resolve in order, but for a skipped one: it comes after those that name an instant
    within `shift` of it, or with the one `shift` later. -/
theorem resolve_order (z : Zone) {w w' : ℤ} (h : w < w') :
    z.resolve w < z.resolve w' ∨
    (z.earliest w = none ∧ z.earliest w' ≠ none ∧ w' ≤ w + z.shift ∧ z.resolve w' ≤ z.resolve w ∧
      z.resolve w < z.resolve w' + z.shift) := by
  have := z.shift_pos
  have := z.width_nonneg
  by_cases hfar : w + 2 * z.width < w'
  · have := z.resolve_bound w
    have := z.resolve_bound w'
    left
    omega
  · obtain ⟨T, a, b, f⟩ := z.once w
    have hw : w - 2 * (z.width + z.shift) ≤ w ∧ w ≤ w + 2 * (z.width + z.shift) := by omega
    have hw' : w - 2 * (z.width + z.shift) ≤ w' ∧ w' ≤ w + 2 * (z.width + z.shift) := by omega
    have hjump := f.jump
    unfold ClockJump at hjump
    rw [resolve_frame f hw, resolve_frame f hw', earliest_frame f hw, earliest_frame f hw']
    split_ifs <;> simp only [ne_eq, reduceCtorEq, not_false_eq_true, true_and, not_true_eq_false,
      false_and, and_false, or_false] <;> omega

/-- The last instants two wall clocks name come in their order. -/
theorem latest_order (z : Zone) {w w' x y : ℤ} (h : w < w') (hx : z.latest w = some x) (hy : z.latest w' = some y) :
    x < y := by
  have := z.shift_pos
  have := z.width_nonneg
  have hlocx : z.local_ x = w := (latest_eq_some.mp hx).1
  have hlocy : z.local_ y = w' := (latest_eq_some.mp hy).1
  have hbx := z.offset_bound x
  have hby := z.offset_bound y
  rw [local_] at hlocx hlocy
  by_cases hfar : w + 2 * z.width < w'
  · omega
  · obtain ⟨T, a, b, f⟩ := z.once w
    have hw : w - 2 * (z.width + z.shift) ≤ w ∧ w ≤ w + 2 * (z.width + z.shift) := by omega
    have hw' : w - 2 * (z.width + z.shift) ≤ w' ∧ w' ≤ w + 2 * (z.width + z.shift) := by omega
    rw [latest_frame f hw] at hx
    rw [latest_frame f hw'] at hy
    split_ifs at hx hy <;> obtain rfl := Option.some.inj hx <;> obtain rfl := Option.some.inj hy <;> omega

/-- An instant comes no sooner than `shift` before one whose wall clock is earlier. -/
theorem resolve_lt_add_shift (z : Zone) {w w' : ℤ} (h : w < w') :
    z.resolve w < z.resolve w' + z.shift := by
  have := z.shift_pos
  rcases z.resolve_order h with hlt | ⟨_, _, _, _, hlt⟩
  · omega
  · exact hlt

/-- A skipped wall clock is read `shift` later. -/
theorem local_resolve_skipped {w : ℤ} (h : z.earliest w = none) : z.local_ (z.resolve w) = w + z.shift := by
  have := z.shift_pos
  have := z.width_nonneg
  obtain ⟨T, a, b, f⟩ := z.once w
  have ha := f.boundA
  have hb := f.boundB
  have hw : w - 2 * (z.width + z.shift) ≤ w ∧ w ≤ w + 2 * (z.width + z.shift) := by omega
  have hjump := f.jump
  unfold ClockJump at hjump
  have hskip := h
  rw [earliest_frame f hw] at hskip
  have hres := resolve_frame f hw
  rw [local_]
  have hoff := offset_frame f (u := z.resolve w) (by split_ifs at hres <;> omega)
  split_ifs at hskip hres
  omega

/-- A skipped wall clock resolves to an instant that follows its gap. -/
theorem followsGap_resolve {w : ℤ} (h : z.earliest w = none) : z.followsGap (z.resolve w) = true := by
  rw [followsGap, local_resolve_skipped h, Int.add_sub_cancel, h]
  rfl

/-- A wall clock resolves to the first instant of the wall clock it is read as. -/
theorem earliest_local_resolve (z : Zone) (w : ℤ) : z.earliest (z.local_ (z.resolve w)) = some (z.resolve w) := by
  cases hfirst : z.earliest w with
  | some t =>
    rw [resolve_of_earliest hfirst, (earliest_eq_some.mp hfirst).1]
    exact hfirst
  | none =>
    have := z.shift_pos
    have := z.width_nonneg
    obtain ⟨T, a, b, f⟩ := z.once w
    have hw : w - 2 * (z.width + z.shift) ≤ w ∧ w ≤ w + 2 * (z.width + z.shift) := by omega
    have hw' : w - 2 * (z.width + z.shift) ≤ w + z.shift ∧ w + z.shift ≤ w + 2 * (z.width + z.shift) := by omega
    have hjump := f.jump
    unfold ClockJump at hjump
    rw [local_resolve_skipped hfirst, earliest_frame f hw', resolve_frame f hw]
    rw [earliest_frame f hw] at hfirst
    split_ifs at hfirst ⊢ <;> first | omega | (congr 1; omega)

/-- Two wall clocks that resolve to one instant: it follows a gap. -/
theorem followsGap_of_resolve_eq {w w' : ℤ} (hlt : w < w') (heq : z.resolve w = z.resolve w') :
    z.followsGap (z.resolve w') = true := by
  rcases z.resolve_order hlt with h | ⟨hskip, _⟩
  · omega
  · rw [← heq]
    exact followsGap_resolve hskip

/-! ### Zones from a table of changes -/

/-- The offset in force, from the one before the first change and the changes in order. -/
def tableOffset (first : ℤ) : List (ℤ × ℤ) → ℤ → ℤ
  | [], _ => first
  | (T, o) :: rest, t => if t < T then first else tableOffset o rest t

/-- Changes far enough apart, each by a jump the clocks may make. -/
def TableOk (width shift : ℤ) : ℤ → List (ℤ × ℤ) → Prop
  | first, [] => -width ≤ first ∧ first ≤ width
  | first, (T, o) :: rest => (-width ≤ first ∧ first ≤ width) ∧ ClockJump shift first o ∧
      (∀ c ∈ rest.head?, T + 8 * (width + shift) < c.1) ∧ TableOk width shift o rest

instance decidableTableOk (width shift : ℤ) : ∀ first table, Decidable (TableOk width shift first table)
  | first, [] => by unfold TableOk; infer_instance
  | first, (T, o) :: rest => by
    unfold TableOk
    have := decidableTableOk width shift o rest
    infer_instance

theorem TableOk.bound {width shift first : ℤ} {table : List (ℤ × ℤ)}
    (h : TableOk width shift first table) : -width ≤ first ∧ first ≤ width := by
  rcases table with _ | ⟨⟨T, o⟩, rest⟩
  · exact h
  · exact h.1

theorem tableOffset_before {first : ℤ} {table : List (ℤ × ℤ)} {t : ℤ}
    (h : ∀ c ∈ table.head?, t < c.1) : tableOffset first table t = first := by
  rcases table with _ | ⟨⟨T, o⟩, rest⟩
  · rfl
  · exact if_pos (h (T, o) rfl)

theorem tableOffset_once {width shift : ℤ} :
    ∀ {table : List (ℤ × ℤ)} {first : ℤ}, TableOk width shift first table → ∀ t, ∃ T a b,
      ClockFrame (tableOffset first table) width shift (4 * (width + shift)) t T a b := by
  intro table
  induction table with
  | nil => intro first h t; exact ⟨t, first, first, ⟨Or.inl rfl, h, h, fun u _ _ => by simp [tableOffset]⟩⟩
  | cons c rest ih =>
    obtain ⟨T, o⟩ := c
    rintro first ⟨hfirst, hjump, hapart, hrest⟩ t
    by_cases hnear : t ≤ T + 4 * (width + shift)
    · -- the next change is out of reach
      refine ⟨T, first, o, ⟨hjump, hfirst, hrest.bound, fun u _ hu => ?_⟩⟩
      rw [tableOffset]
      split
      · rfl
      · exact tableOffset_before fun c hc => by have := hapart c hc; omega
    · obtain ⟨T', a, b, f⟩ := ih hrest t
      refine ⟨T', a, b, ⟨f.jump, f.boundA, f.boundB, fun u hl hu => ?_⟩⟩
      rw [tableOffset, if_neg (by omega)]
      exact f.offset_eq u hl hu

/-- No change skips the start of a day of length `day`. -/
def TableKeepsMidnights (day : ℤ) : ℤ → List (ℤ × ℤ) → Prop
  | _, [] => True
  | first, (T, o) :: rest =>
      (first < o → (T + first - 1) / day = (T + o - 1) / day) ∧ TableKeepsMidnights day o rest

instance decidableTableKeepsMidnights (day : ℤ) : ∀ first table,
    Decidable (TableKeepsMidnights day first table)
  | first, [] => by unfold TableKeepsMidnights; infer_instance
  | first, (T, o) :: rest => by
    unfold TableKeepsMidnights
    have := decidableTableKeepsMidnights day o rest
    infer_instance

theorem exists_midnight {width shift day : ℤ} (hshift : 0 < shift) (hday : 0 < day) (d : ℤ) :
    ∀ {table : List (ℤ × ℤ)} {first L : ℤ}, TableOk width shift first table →
      TableKeepsMidnights day first table → (∀ c ∈ table.head?, L ≤ c.1) → L + first ≤ d * day →
      ∃ t, L ≤ t ∧ t + tableOffset first table t = d * day := by
  intro table
  induction table with
  | nil => intro first L _ _ _ hL; exact ⟨d * day - first, by omega, by simp [tableOffset]⟩
  | cons c rest ih =>
    obtain ⟨T, o⟩ := c
    rintro first L ⟨hfirst, _, hapart, hok⟩ ⟨hgap, hrest⟩ hhead hL
    have hLT : L ≤ T := hhead (T, o) rfl
    by_cases hbefore : d * day - first < T
    · exact ⟨d * day - first, by omega, by rw [tableOffset, if_pos hbefore]; omega⟩
    · have hafter : T + o ≤ d * day := by
        by_contra hin
        have hlt : first < o := by omega
        have hlo : (T + first - 1) / day < d := Int.ediv_lt_of_lt_mul hday (by omega)
        have hhi : d ≤ (T + o - 1) / day := (Int.le_ediv_iff_mul_le hday).mpr (by omega)
        have := hgap hlt
        omega
      obtain ⟨t, ht, heq⟩ := ih hok hrest (fun c hc => by have := hapart c hc; omega) hafter
      exact ⟨t, by omega, by rw [tableOffset, if_neg (by omega)]; exact heq⟩

def ofTable (width shift first : ℤ) (table : List (ℤ × ℤ)) (hshift : 0 < shift)
    (h : TableOk width shift first table) : Zone :=
  ⟨tableOffset first table, width, shift, hshift, tableOffset_once h⟩

end Zone
