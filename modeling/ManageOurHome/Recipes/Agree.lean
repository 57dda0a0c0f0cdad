import Mathlib.Algebra.BigOperators.Group.List.Basic
import Mathlib.Algebra.Order.BigOperators.Group.List
import Mathlib.Tactic.Linarith
import ManageOurHome.Grocery.Sums
import ManageOurHome.Recipes.Availability

/-! @src apps/api/src/recipes (availability.rs, outcome.rs) | layer:proof | family:recipes

    What a planned recipe lacks, and what marking it done takes, on exact quantities. Both look at the
    lines of a name and a unit; what those hold together is what an ingredient is taken from, and each
    ingredient takes all it wants or all there is.

        held ─ wanted by the first ─ wanted by the second ─ …      never under 0

    A need is the first required ingredient of its name, with those of its unit added: where a name comes
    with one unit, the needs covered are the ingredients taken in full. -/

namespace Home.Recipes

open Home.Stocks (articleKey)
open Home.Grocery (PlannedIngredient PlannedLine scaleQuantity planned mem_planned)

variable {U R : Type*} {lowercase : Text → Text}

/-- An ingredient as `preview_done` proposes it. -/
def RecipeIngredient.wanted (noise : ℚ → ℚ) (writtenFor cookedFor : Option ℤ) (i : RecipeIngredient) :
    Ingredient := ⟨i.name, scaleQuantity noise i.quantity writtenFor cookedFor, i.unit⟩

/-- The unit an ingredient is matched on. -/
def unitKey (lowercase : Text → Text) (unit : Option Text) : Text :=
  articleKey lowercase (Stocks.normalizeUnit (unit.getD []))

/-! ### What the lines of a name and a unit hold -/

/-- The stock lines of a name and a unit. -/
def ofClass (lowercase : Text → Text) (name unit : Text) (stock : List (StockLine U)) : List (StockLine U) :=
  stock.filter fun s => articleKey lowercase s.name = name ∧ articleKey lowercase s.unit = unit

/-- What lines have left together. -/
def leftIn (left : U → ℚ) (lines : List (StockLine U)) : ℚ := (lines.map fun s => max (left s.id) 0).sum

section

variable {left left' : U → ℚ} {lines : List (StockLine U)}

theorem leftIn_nonneg : 0 ≤ leftIn left lines :=
  List.sum_nonneg fun x hx => by
    obtain ⟨s, _, rfl⟩ := List.mem_map.mp hx
    exact le_max_right _ _

theorem leftIn_congr (h : ∀ s ∈ lines, left s.id = left' s.id) : leftIn left lines = leftIn left' lines := by
  rw [leftIn, leftIn]
  congr 1
  exact List.map_congr_left fun s hs => by rw [h s hs]

/-- A line that has something left is taken from. -/
def Taking.step [DecidableEq U] (t : Taking U) (u : U) (quantity : ℚ) : Taking U :=
  ⟨Function.update t.left u (t.left u - quantity), t.still - quantity, t.total + quantity, t.lots ++ [⟨u, quantity⟩]⟩

@[simp] theorem step_left_self [DecidableEq U] (t : Taking U) (u : U) (quantity : ℚ) :
    (t.step u quantity).left u = t.left u - quantity := Function.update_self _ _ _

theorem step_left_of_ne [DecidableEq U] (t : Taking U) {u v : U} (quantity : ℚ) (h : v ≠ u) :
    (t.step u quantity).left v = t.left v := Function.update_of_ne h _ _

@[simp] theorem step_still [DecidableEq U] (t : Taking U) (u : U) (quantity : ℚ) :
    (t.step u quantity).still = t.still - quantity := rfl

@[simp] theorem step_total [DecidableEq U] (t : Taking U) (u : U) (quantity : ℚ) :
    (t.step u quantity).total = t.total + quantity := rfl

/-- STEP: nothing more is wanted, the line has nothing left, or it gives what is wanted or all it has left. -/
theorem over_cons [DecidableEq U] (lot : StockLine U) (t : Taking U) : Taking.over id (lot :: lines) t =
    if t.still ≤ 0 then t
    else if t.left lot.id ≤ 0 then Taking.over id lines t
    else Taking.over id lines (t.step lot.id (min t.still (t.left lot.id))) := by
  rw [Taking.over]
  by_cases hstop : t.still ≤ 0
  · rw [if_pos hstop, if_pos hstop]
  · rw [if_neg hstop, if_neg hstop]
    push Not at hstop
    simp only [id_eq]
    by_cases hnone : t.left lot.id ≤ 0
    · have hskip : cap t.still (t.left lot.id) ≤ 0 := max_le (min_le_of_right_le hnone) le_rfl
      rw [if_pos hskip, if_pos hnone]
    · rw [if_neg hnone]
      push Not at hnone
      have hpos : 0 < min t.still (t.left lot.id) := lt_min hstop hnone
      have hcap : cap t.still (t.left lot.id) = min t.still (t.left lot.id) := max_eq_left hpos.le
      have hafter : (remainingAfter id (t.left lot.id) (min t.still (t.left lot.id))).getD 0 =
          t.left lot.id - min t.still (t.left lot.id) := by
        rw [remainingAfter, id, if_pos (min_le_right _ _)]
        exact max_eq_left (sub_nonneg.mpr (min_le_right _ _))
      rw [hcap, if_neg (not_le.mpr hpos), hafter, Taking.step]

/-- TAKE: a loop over lines takes what is wanted, or all they have left. -/
theorem over_spec [DecidableEq U] (lines : List (StockLine U)) (hids : (lines.map StockLine.id).Nodup)
    (t : Taking U) (hstill : 0 ≤ t.still) :
    (Taking.over id lines t).total = t.total + min t.still (leftIn t.left lines) ∧
    leftIn (Taking.over id lines t).left lines = leftIn t.left lines - min t.still (leftIn t.left lines) ∧
    ∀ u ∉ lines.map StockLine.id, (Taking.over id lines t).left u = t.left u := by
  induction lines generalizing t with
  | nil => simp [Taking.over, leftIn, hstill]
  | cons lot lines ih =>
    obtain ⟨hlot, hids⟩ := List.nodup_cons.mp hids
    have hrest : ∀ left : U → ℚ, leftIn left (lot :: lines) = max (left lot.id) 0 + leftIn left lines :=
      fun left => List.sum_cons
    rw [over_cons]
    by_cases hstop : t.still ≤ 0
    · rw [if_pos hstop]
      obtain hzero : t.still = 0 := le_antisymm hstop hstill
      have hmin : min t.still (leftIn t.left (lot :: lines)) = 0 := by
        rw [hzero]
        exact min_eq_left leftIn_nonneg
      rw [hmin]
      simp
    · rw [if_neg hstop]
      by_cases hleft : t.left lot.id ≤ 0
      · -- nothing is left of the line
        rw [if_pos hleft]
        obtain ⟨htotal, hsum, hother⟩ := ih hids t hstill
        have hsame := hother lot.id hlot
        rw [hrest, hrest, hsame, max_eq_right hleft, zero_add, zero_add]
        refine ⟨htotal, hsum, fun u hu => hother u fun hmem => hu ?_⟩
        exact List.mem_cons_of_mem _ hmem
      · rw [if_neg hleft]
        push Not at hleft
        obtain ⟨htotal, hsum, hother⟩ := ih hids (t.step lot.id (min t.still (t.left lot.id)))
          (sub_nonneg.mpr (min_le_left _ _))
        have hlines : leftIn (t.step lot.id (min t.still (t.left lot.id))).left lines = leftIn t.left lines :=
          leftIn_congr fun s hs => step_left_of_ne t _ fun heq => hlot (List.mem_map.mpr ⟨s, hs, heq⟩)
        have hlast := hother lot.id hlot
        rw [step_left_self] at hlast
        rw [hlines, step_still, step_total] at htotal
        rw [hlines, step_still] at hsum
        have hlot' : max (t.left lot.id - min t.still (t.left lot.id)) 0 =
            t.left lot.id - min t.still (t.left lot.id) := max_eq_left (sub_nonneg.mpr (min_le_right _ _))
        have hsplit : min t.still (t.left lot.id) +
            min (t.still - min t.still (t.left lot.id)) (leftIn t.left lines) =
            min t.still (t.left lot.id + leftIn t.left lines) := by
          have hnonneg : 0 ≤ leftIn t.left lines := leftIn_nonneg
          rcases le_total t.still (t.left lot.id) with hle | hle
          · rw [min_eq_left hle, sub_self, min_eq_left hnonneg, add_zero, min_eq_left]
            linarith
          · rw [min_eq_right hle, ← min_add_add_left, add_sub_cancel]
        rw [hrest, hrest, max_eq_left hleft.le]
        refine ⟨?_, ?_, fun u hu => ?_⟩
        · rw [htotal]
          linarith
        · rw [hsum, hlast, hlot']
          linarith
        · obtain ⟨hne, hu⟩ := List.ne_and_not_mem_of_not_mem_cons hu
          rw [hother u hu, step_left_of_ne t _ hne]

end

section

variable [LinearOrder U] {stock : List (StockLine U)} {left : U → ℚ} {name unit : Text}

theorem lotsInOrder_perm : (lotsInOrder lowercase name unit stock).Perm
    (ofClass lowercase (articleKey lowercase name) (articleKey lowercase unit) stock) :=
  List.perm_insertionSort _ _

omit [LinearOrder U] in
theorem mem_ofClass {s : StockLine U} : s ∈ ofClass lowercase name unit stock ↔
    s ∈ stock ∧ articleKey lowercase s.name = name ∧ articleKey lowercase s.unit = unit := by
  rw [ofClass, List.mem_filter, decide_eq_true_iff]

theorem matchStock_eq_none : matchStock lowercase name unit stock = none ↔
    ∀ s ∈ stock, articleKey lowercase s.name ≠ articleKey lowercase name := by
  rw [matchStock, List.argmin_eq_none, List.filter_eq_nil_iff]
  simp

/-- The line matched is of the name, and of the unit where one is. -/
theorem matchStock_eq_some {line : StockLine U} (h : matchStock lowercase name unit stock = some line) :
    (line ∈ stock ∧ articleKey lowercase line.name = articleKey lowercase name) ∧
    (articleKey lowercase line.unit ≠ articleKey lowercase unit →
      ofClass lowercase (articleKey lowercase name) (articleKey lowercase unit) stock = []) := by
  have hmem := List.argmin_mem (Option.mem_def.mpr h)
  rw [List.mem_filter, decide_eq_true_iff] at hmem
  refine ⟨hmem, fun hunit => List.eq_nil_iff_forall_not_mem.mpr fun s hs => ?_⟩
  obtain ⟨hs, hname, hsunit⟩ := mem_ofClass.mp hs
  have hle := List.le_of_mem_argmin (List.mem_filter.mpr ⟨hs, by simpa using hname⟩)
    (Option.mem_def.mpr h)
  rw [matchKey, matchKey, Prod.Lex.toLex_le_toLex] at hle
  simp only [hunit, hsunit, ne_eq, not_true_eq_false, not_false_eq_true, decide_true, decide_false] at hle
  rcases hle with hle | ⟨hle, _⟩
  · exact absurd hle (by decide)
  · exact absurd hle (by decide)

/-- What the loop over the lots of a name and a unit does. -/
theorem lots_spec (hids : (stock.map StockLine.id).Nodup) {wanted : ℚ} (hwanted : 0 ≤ wanted) :
    let lots := lotsInOrder lowercase name unit stock
    let lines := ofClass lowercase (articleKey lowercase name) (articleKey lowercase unit) stock
    (Taking.over id lots ⟨left, wanted, 0, []⟩).total = min wanted (leftIn left lines) ∧
    leftIn (Taking.over id lots ⟨left, wanted, 0, []⟩).left lines =
      leftIn left lines - min wanted (leftIn left lines) ∧
    ∀ u ∉ lines.map StockLine.id, (Taking.over id lots ⟨left, wanted, 0, []⟩).left u = left u := by
  intro lots lines
  have hperm : lots.Perm lines := lotsInOrder_perm
  have hnodup : (lots.map StockLine.id).Nodup :=
    (hperm.map _).nodup_iff.mpr (hids.sublist (List.filter_sublist.map _))
  have hleft : ∀ left : U → ℚ, leftIn left lots = leftIn left lines := fun left =>
    (hperm.map _).sum_eq
  obtain ⟨htotal, hsum, hother⟩ := over_spec lots hnodup ⟨left, wanted, 0, []⟩ hwanted
  rw [hleft, zero_add] at htotal
  rw [hleft, hleft] at hsum
  exact ⟨htotal, hsum, fun u hu => hother u fun hmem => hu ((hperm.map _).mem_iff.mp hmem)⟩

variable {ing : Ingredient}

variable (lowercase stock left ing) in
/-- What is proposed for an ingredient: nothing, or what the loop over its lots takes. -/
theorem proposeOne_cases :
    (proposeOne lowercase id stock left ing = (⟨[], 0, some .NoStock⟩, left) ∧
      ∀ s ∈ stock, articleKey lowercase s.name ≠ articleKey lowercase ing.name) ∨
    ∃ line ∈ stock, articleKey lowercase line.name = articleKey lowercase ing.name ∧
      ((proposeOne lowercase id stock left ing = (⟨[⟨line.id, 0⟩], 0, some .UnitMismatch⟩, left) ∧
          ofClass lowercase (articleKey lowercase ing.name) (unitKey lowercase ing.unit) stock = []) ∨
        (ing.quantity = none ∧
          proposeOne lowercase id stock left ing = (⟨[⟨line.id, 0⟩], 0, some .NoQuantity⟩, left)) ∨
        ∃ wanted, ing.quantity = some wanted ∧ articleKey lowercase line.unit = unitKey lowercase ing.unit ∧
          let t := Taking.over id (lotsInOrder lowercase ing.name (Stocks.normalizeUnit (ing.unit.getD []))
            stock) ⟨left, wanted, 0, []⟩
          proposeOne lowercase id stock left ing =
            (⟨if t.lots = [] then [⟨line.id, 0⟩] else t.lots, t.total,
              if t.total < wanted then some .Capped else none⟩, t.left)) := by
  rw [proposeOne]
  rcases hmatch : matchStock lowercase ing.name (Stocks.normalizeUnit (ing.unit.getD [])) stock with _ | line
  · exact Or.inl ⟨rfl, matchStock_eq_none.mp hmatch⟩
  · obtain ⟨⟨hline, hname⟩, hempty⟩ := matchStock_eq_some hmatch
    refine Or.inr ⟨line, hline, hname, ?_⟩
    by_cases hunit : articleKey lowercase line.unit = unitKey lowercase ing.unit
    · refine Or.inr ?_
      rcases hquantity : ing.quantity with _ | wanted
      · exact Or.inl ⟨rfl, if_neg (not_not_intro hunit)⟩
      · exact Or.inr ⟨wanted, rfl, hunit, if_neg (not_not_intro hunit)⟩
    · exact Or.inl ⟨if_pos hunit, hempty hunit⟩

/-- Capped is less than wanted. -/
theorem lt_of_capped (h : (proposeOne lowercase id stock left ing).1.warning = some .Capped) :
    ∃ wanted, ing.quantity = some wanted ∧
      (proposeOne lowercase id stock left ing).1.quantity < wanted := by
  rcases proposeOne_cases lowercase stock left ing with
    ⟨heq, _⟩ | ⟨line, _, _, ⟨heq, _⟩ | ⟨_, heq⟩ | ⟨wanted, hquantity, _, heq⟩⟩
  · exact absurd h (by rw [heq]; simp)
  · exact absurd h (by rw [heq]; simp)
  · exact absurd h (by rw [heq]; simp)
  · refine ⟨wanted, hquantity, ?_⟩
    by_contra hle
    rw [heq] at h hle
    exact absurd (h.symm.trans (if_neg hle)) (by simp)

/-- Without stock, there is no line of the name. -/
theorem not_mem_of_noStock (h : (proposeOne lowercase id stock left ing).1.warning = some .NoStock) :
    ∀ s ∈ stock, articleKey lowercase s.name ≠ articleKey lowercase ing.name := by
  rcases proposeOne_cases lowercase stock left ing with
    ⟨_, hnone⟩ | ⟨line, _, _, ⟨heq, _⟩ | ⟨_, heq⟩ | ⟨wanted, hquantity, _, heq⟩⟩
  · exact hnone
  · exact absurd h (by rw [heq]; simp)
  · exact absurd h (by rw [heq]; simp)
  · rw [heq] at h
    split at h
    · exact absurd h (by simp)
    · exact absurd h (by simp)

/-- An ingredient without a quantity is shown a line of its name. -/
theorem name_of_lots (hids : (stock.map StockLine.id).Nodup) (hquantity : ing.quantity = none)
    {line : StockLine U} (hline : line ∈ stock)
    (hlots : (proposeOne lowercase id stock left ing).1.lots = [⟨line.id, 0⟩]) :
    articleKey lowercase line.name = articleKey lowercase ing.name := by
  rcases proposeOne_cases lowercase stock left ing with
    ⟨heq, _⟩ | ⟨line', hline', hname, ⟨heq, _⟩ | ⟨_, heq⟩ | ⟨wanted, hsome, _⟩⟩
  · exact absurd hlots (by rw [heq]; simp)
  · rw [heq] at hlots
    obtain rfl := List.inj_on_of_nodup_map hids hline' hline (by simpa using hlots)
    exact hname
  · rw [heq] at hlots
    obtain rfl := List.inj_on_of_nodup_map hids hline' hline (by simpa using hlots)
    exact hname
  · exact absurd (hquantity.symm.trans hsome) (by simp)

variable (left) in
/-- PROPOSE: an ingredient gets what it wants, or all there is of its name and unit. -/
theorem proposeOne_quantity (hids : (stock.map StockLine.id).Nodup) {wanted : ℚ} (hwanted : 0 ≤ wanted)
    (hquantity : ing.quantity = some wanted) :
    let lines := ofClass lowercase (articleKey lowercase ing.name) (unitKey lowercase ing.unit) stock
    (proposeOne lowercase id stock left ing).1.quantity = min wanted (leftIn left lines) ∧
    leftIn (proposeOne lowercase id stock left ing).2 lines =
      leftIn left lines - min wanted (leftIn left lines) := by
  intro lines
  have hempty : lines = [] → min wanted (leftIn left lines) = 0 := fun h => by
    rw [h]
    exact min_eq_right hwanted
  rcases proposeOne_cases lowercase stock left ing with
    ⟨heq, hnone⟩ | ⟨line, _, _, ⟨heq, hnil⟩ | ⟨hnone, _⟩ | ⟨w, hw, _, heq⟩⟩
  · have hnil : lines = [] := List.eq_nil_iff_forall_not_mem.mpr fun s hs =>
      hnone s (mem_ofClass.mp hs).1 (mem_ofClass.mp hs).2.1
    rw [heq, hempty hnil, sub_zero]
    exact ⟨rfl, rfl⟩
  · rw [heq, hempty hnil, sub_zero]
    exact ⟨rfl, rfl⟩
  · exact absurd (hnone.symm.trans hquantity) (by simp)
  · obtain rfl := Option.some.inj (hquantity.symm.trans hw)
    rw [heq]
    exact ⟨(lots_spec hids hwanted).1, (lots_spec hids hwanted).2.1⟩

/-- FRAME: the lines of another name or unit keep what they have. -/
theorem proposeOne_other (hids : (stock.map StockLine.id).Nodup)
    (hwanted : ∀ wanted, ing.quantity = some wanted → 0 ≤ wanted)
    (hother : articleKey lowercase ing.name ≠ name ∨ unitKey lowercase ing.unit ≠ unit) :
    leftIn (proposeOne lowercase id stock left ing).2 (ofClass lowercase name unit stock) =
      leftIn left (ofClass lowercase name unit stock) := by
  rcases proposeOne_cases lowercase stock left ing with
    ⟨heq, _⟩ | ⟨line, _, _, ⟨heq, _⟩ | ⟨_, heq⟩ | ⟨w, hw, _, heq⟩⟩
  · rw [heq]
  · rw [heq]
  · rw [heq]
  · rw [heq]
    refine leftIn_congr fun s hs => ?_
    refine (lots_spec hids (hwanted w hw)).2.2 s.id fun hmem => ?_
    obtain ⟨s', hs', hid⟩ := List.mem_map.mp hmem
    obtain ⟨hs, hname, hunit⟩ := mem_ofClass.mp hs
    obtain ⟨hs', hname', hunit'⟩ := mem_ofClass.mp hs'
    obtain rfl := List.inj_on_of_nodup_map hids hs' hs hid
    rcases hother with h | h
    · exact h (hname'.symm.trans hname)
    · exact h (hunit'.symm.trans hunit)

theorem proposeOne_left (hids : (stock.map StockLine.id).Nodup)
    (hwanted : ∀ wanted, ing.quantity = some wanted → 0 ≤ wanted) :
    let lines := ofClass lowercase (articleKey lowercase ing.name) (unitKey lowercase ing.unit) stock
    leftIn (proposeOne lowercase id stock left ing).2 lines =
      max (leftIn left lines - ing.quantity.getD 0) 0 := by
  intro lines
  rcases hquantity : ing.quantity with _ | wanted
  · have hsame : (proposeOne lowercase id stock left ing).2 = left := by
      rcases proposeOne_cases lowercase stock left ing with
        ⟨heq, _⟩ | ⟨line, _, _, ⟨heq, _⟩ | ⟨_, heq⟩ | ⟨w, hw, _⟩⟩
      · rw [heq]
      · rw [heq]
      · rw [heq]
      · exact absurd (hquantity.symm.trans hw) (by simp)
    rw [hsame, Option.getD_none, sub_zero, max_eq_left leftIn_nonneg]
  · rw [(proposeOne_quantity _ hids (hwanted wanted hquantity) hquantity).2, Option.getD_some]
    rcases le_total wanted (leftIn left lines) with h | h
    · rw [min_eq_left h, max_eq_left (sub_nonneg.mpr h)]
    · rw [min_eq_right h, max_eq_right (sub_nonpos.mpr h), sub_self]

/-! ### One ingredient after the other -/

/-- What the lines have left after some ingredients. -/
def leftAfter (lowercase : Text → Text) (stock : List (StockLine U)) : (U → ℚ) → List Ingredient → (U → ℚ)
  | left, [] => left
  | left, ing :: ings => leftAfter lowercase stock (proposeOne lowercase id stock left ing).2 ings

/-- What some ingredients want of a name and a unit. -/
def wantedIn (lowercase : Text → Text) (name unit : Text) (ings : List Ingredient) : ℚ :=
  ((ings.filter fun i => articleKey lowercase i.name = name ∧ unitKey lowercase i.unit = unit).map
    fun i => i.quantity.getD 0).sum

variable {ings : List Ingredient}

theorem getElem?_proposeFrom {n : ℕ} : (proposeFrom lowercase id stock left ings)[n]? =
    ings[n]?.map fun ing =>
      (proposeOne lowercase id stock (leftAfter lowercase stock left (ings.take n)) ing).1 := by
  induction ings generalizing left n with
  | nil => rfl
  | cons ing ings ih =>
    cases n with
    | zero => rfl
    | succ n => exact ih

omit [LinearOrder U] in
theorem wantedIn_cons : wantedIn lowercase name unit (ing :: ings) =
    (if articleKey lowercase ing.name = name ∧ unitKey lowercase ing.unit = unit then
      ing.quantity.getD 0 else 0) + wantedIn lowercase name unit ings := by
  rw [wantedIn, List.filter_cons]
  by_cases h : articleKey lowercase ing.name = name ∧ unitKey lowercase ing.unit = unit
  · rw [if_pos (decide_eq_true h), if_pos h, List.map_cons, List.sum_cons, wantedIn]
  · rw [if_neg (by simpa using h), if_neg h, zero_add, wantedIn]

omit [LinearOrder U] in
theorem wantedIn_append {ings' : List Ingredient} : wantedIn lowercase name unit (ings ++ ings') =
    wantedIn lowercase name unit ings + wantedIn lowercase name unit ings' := by
  rw [wantedIn, List.filter_append, List.map_append, List.sum_append, wantedIn, wantedIn]

variable (lowercase name unit) in
omit [LinearOrder U] in
theorem wantedIn_nonneg (hwanted : ∀ ing ∈ ings, ∀ wanted, ing.quantity = some wanted → 0 ≤ wanted) :
    0 ≤ wantedIn lowercase name unit ings :=
  List.sum_nonneg fun x hx => by
    obtain ⟨i, hi, rfl⟩ := List.mem_map.mp hx
    rcases hq : i.quantity with _ | q
    · exact le_rfl
    · exact hwanted i (List.mem_of_mem_filter hi) q hq

/-- RUN: some ingredients take what they want of a name and a unit, or all there is. -/
theorem leftIn_leftAfter (hids : (stock.map StockLine.id).Nodup)
    (hwanted : ∀ ing ∈ ings, ∀ wanted, ing.quantity = some wanted → 0 ≤ wanted) :
    leftIn (leftAfter lowercase stock left ings) (ofClass lowercase name unit stock) =
      max (leftIn left (ofClass lowercase name unit stock) - wantedIn lowercase name unit ings) 0 := by
  induction ings generalizing left with
  | nil =>
    have hnone : wantedIn lowercase name unit [] = 0 := rfl
    rw [leftAfter, hnone, sub_zero, max_eq_left leftIn_nonneg]
  | cons ing ings ih =>
    have hone := hwanted ing List.mem_cons_self
    have hrest : ∀ ing ∈ ings, ∀ wanted, ing.quantity = some wanted → 0 ≤ wanted := fun i hi =>
      hwanted i (List.mem_cons_of_mem _ hi)
    rw [leftAfter, ih hrest, wantedIn_cons]
    split
    · rename_i hclass
      obtain ⟨rfl, rfl⟩ := hclass
      rw [proposeOne_left hids hone]
      have hnonneg := wantedIn_nonneg lowercase (articleKey lowercase ing.name)
        (unitKey lowercase ing.unit) hrest
      rcases le_total (ing.quantity.getD 0) (leftIn left (ofClass lowercase
        (articleKey lowercase ing.name) (unitKey lowercase ing.unit) stock)) with h | h
      · rw [max_eq_left (sub_nonneg.mpr h), sub_sub]
      · rw [max_eq_right (sub_nonpos.mpr h), max_eq_right, max_eq_right]
        · linarith
        · linarith
    · rename_i hclass
      rw [proposeOne_other hids hone (not_and_or.mp hclass), zero_add]

end

/-! ### What is needed -/

/-- The first required ingredient of a name. -/
def firstOf (lowercase : Text → Text) (name : Text) (ingredients : List RecipeIngredient) :
    Option RecipeIngredient :=
  ((ingredients.filter fun i => !i.isOptional).filter fun i =>
    articleKey lowercase i.name = name).head?

section

variable {recipeId : R} {ingredients : List RecipeIngredient} {writtenFor cookedFor : Option ℤ}
  {need : PlannedLine R} {name unit : Text}

/-- With a quantity, a grocery line and a stock line are given one unit. -/
theorem normalizeUnit_some (q : ℚ) (u : Option Text) :
    Grocery.normalizeUnit (some q) u = some (Stocks.normalizeUnit (u.getD [])) := by
  cases u with
  | none => rfl
  | some u =>
    rw [Grocery.normalizeUnit, Option.map_some, Option.getD_some, Stocks.normalizeUnit]
    by_cases hu : trim u = []
    · simp [hu]
    · simp [hu]

/-- What ingredients call for in a unit, on the key of the unit. -/
theorem sumIn_some (lowercase : Text → Text) (unit : Text) (ings : List (PlannedIngredient R)) :
    Grocery.sumIn lowercase (some unit) ings =
      ((ings.filter fun i => unitKey lowercase i.unit = articleKey lowercase unit).map
        fun i => (i.scaled id).getD 0).sum := by
  induction ings with
  | nil => rfl
  | cons ing ings ih =>
    rw [Grocery.sumIn_cons, ih, List.filter_cons, PlannedIngredient.normalUnit]
    rcases hq : ing.scaled id with _ | q
    · by_cases hsame : unitKey lowercase ing.unit = articleKey lowercase unit
      · simp [hsame, hq]
      · simp [hsame]
    · rw [normalizeUnit_some]
      by_cases hsame : unitKey lowercase ing.unit = articleKey lowercase unit
      · simp [Grocery.sameUnit, hq, ← hsame, unitKey]
      · have hdiff : articleKey lowercase unit ≠
            articleKey lowercase (Stocks.normalizeUnit (ing.unit.getD [])) := Ne.symm hsame
        simp [Grocery.sameUnit, hsame, hdiff]

variable (lowercase) in
/-- A line that has a quantity is added the quantities of its unit. -/
theorem quantity_addAll {line : PlannedLine R} (ings : List (PlannedIngredient R)) {q : ℚ}
    (hq : line.quantity = some q) (hunit : line.unit = some unit) :
    (line.addAll lowercase id ings).unit = some unit ∧
    (line.addAll lowercase id ings).quantity =
      some (q + ((ings.filter fun i => unitKey lowercase i.unit = articleKey lowercase unit).map
        fun i => (i.scaled id).getD 0).sum) := by
  rw [PlannedLine.addAll_eq, hq, hunit, sumIn_some]
  exact ⟨rfl, rfl⟩

/-- A line without a quantity stays so. -/
theorem addAll_of_none {line : PlannedLine R} {ings : List (PlannedIngredient R)}
    (hq : line.quantity = none) : line.addAll lowercase id ings = line := by
  rw [PlannedLine.addAll_eq, hq, Option.map_none, ← hq]

/-- A need comes from the first required ingredient of its name: it has no quantity when that one has
    none, and else the quantities of its unit together. -/
structure NeedOf (lowercase : Text → Text) (writtenFor cookedFor : Option ℤ)
    (ingredients : List RecipeIngredient) (need : PlannedLine R) (first : RecipeIngredient) : Prop where
  head : firstOf lowercase (articleKey lowercase need.name) ingredients = some first
  bare : first.quantity = none → need.quantity = none
  summed : first.quantity.isSome →
    articleKey lowercase (need.unit.getD []) = unitKey lowercase first.unit ∧
    need.quantity = some (wantedIn lowercase (articleKey lowercase need.name)
      (unitKey lowercase first.unit)
      ((ingredients.filter fun i => !i.isOptional).map (RecipeIngredient.wanted id writtenFor cookedFor)))

theorem NeedOf.isSome_of_some {first : RecipeIngredient} {q : ℚ}
    (h : NeedOf lowercase writtenFor cookedFor ingredients need first) (hq : need.quantity = some q) :
    first.quantity.isSome := by
  by_contra hnone
  exact absurd ((h.bare (Option.not_isSome_iff_eq_none.mp hnone)).symm.trans hq) (by simp)

theorem NeedOf.none_of_none {first : RecipeIngredient}
    (h : NeedOf lowercase writtenFor cookedFor ingredients need first) (hq : need.quantity = none) :
    first.quantity = none := by
  by_contra hsome
  exact absurd ((h.summed (Option.ne_none_iff_isSome.mp hsome)).2.symm.trans hq) (by simp)

theorem mem_of_firstOf {first : RecipeIngredient} (h : firstOf lowercase name ingredients = some first) :
    first ∈ ingredients ∧ first.isOptional = false ∧ articleKey lowercase first.name = name := by
  obtain ⟨hrequired, hname⟩ := List.mem_filter.mp (List.mem_of_mem_head? (Option.mem_def.mpr h))
  obtain ⟨hmem, hoptional⟩ := List.mem_filter.mp hrequired
  exact ⟨hmem, by simpa using hoptional, by simpa using hname⟩

theorem isSome_scaleQuantity {quantity : Option ℚ} {base target : Option ℤ} :
    (scaleQuantity id quantity base target).isSome = quantity.isSome := by
  unfold scaleQuantity
  split
  · split <;> rfl
  · rfl

/-- The needs by name: the required ingredients of the name, the first one making the line. -/
theorem mem_needs : need ∈ needs lowercase id recipeId ingredients writtenFor cookedFor ↔
    ∃ key first rest, ((ingredients.filter fun i => !i.isOptional).filter fun i =>
        articleKey lowercase i.name = key) = first :: rest ∧
      need = ((⟨recipeId, first.name, first.quantity, first.unit, writtenFor, cookedFor⟩ :
        PlannedIngredient R).line id).addAll lowercase id
          (rest.map fun i => ⟨recipeId, i.name, i.quantity, i.unit, writtenFor, cookedFor⟩) := by
  rw [needs, Grocery.planLines, List.mem_map]
  constructor
  · rintro ⟨⟨key, line⟩, hmem, rfl⟩
    obtain ⟨first, rest, hcons, hline⟩ := mem_planned.mp hmem
    rw [List.filter_map] at hcons
    obtain ⟨first, rest, hfilter, rfl, rfl⟩ := List.map_eq_cons_iff.mp hcons
    exact ⟨key, first, rest, hfilter, hline⟩
  · rintro ⟨key, first, rest, hfilter, rfl⟩
    refine ⟨(key, _), mem_planned.mpr ⟨_, _, ?_, rfl⟩, rfl⟩
    rw [List.filter_map]
    exact (congrArg (List.map _) hfilter).trans List.map_cons

theorem needOf_of_mem (h : need ∈ needs lowercase id recipeId ingredients writtenFor cookedFor) :
    ∃ first, NeedOf lowercase writtenFor cookedFor ingredients need first := by
  obtain ⟨key, first, rest, hfilter, rfl⟩ := mem_needs.mp h
  have hkey : articleKey lowercase first.name = key := by
    have hmem : first ∈ (ingredients.filter fun i => !i.isOptional).filter fun i =>
        articleKey lowercase i.name = key := hfilter ▸ List.mem_cons_self
    simpa using (List.mem_filter.mp hmem).2
  have hname : articleKey lowercase (((⟨recipeId, first.name, first.quantity, first.unit, writtenFor,
      cookedFor⟩ : PlannedIngredient R).line id).addAll lowercase id
        (rest.map fun i => ⟨recipeId, i.name, i.quantity, i.unit, writtenFor, cookedFor⟩)).name = key := by
    rw [PlannedLine.name_addAll, PlannedIngredient.line, Stocks.articleKey_trim, hkey]
  refine ⟨first, ?_, fun hnone => ?_, fun hsome => ?_⟩
  · rw [firstOf, hname, hfilter, List.head?_cons]
  · have hscaled : (⟨recipeId, first.name, first.quantity, first.unit, writtenFor, cookedFor⟩ :
        PlannedIngredient R).scaled id = none := by
      rw [PlannedIngredient.scaled, hnone]
      rfl
    rw [addAll_of_none hscaled]
    exact hscaled
  · rw [hname]
    have hscaled : (scaleQuantity id first.quantity writtenFor cookedFor).isSome :=
      isSome_scaleQuantity.trans hsome
    obtain ⟨q, hq⟩ := Option.isSome_iff_exists.mp hscaled
    have hline : ((⟨recipeId, first.name, first.quantity, first.unit, writtenFor, cookedFor⟩ :
        PlannedIngredient R).line id).unit = some (Stocks.normalizeUnit (first.unit.getD [])) :=
      (congrArg (Grocery.normalizeUnit · first.unit) hq).trans (normalizeUnit_some q first.unit)
    obtain ⟨hunit, hquantity⟩ := quantity_addAll lowercase
      (rest.map fun i => ⟨recipeId, i.name, i.quantity, i.unit, writtenFor, cookedFor⟩) hq hline
    refine ⟨by rw [hunit]; rfl, hquantity.trans (congrArg some ?_)⟩
    have hclass : ((ingredients.filter fun i => !i.isOptional).map
        (RecipeIngredient.wanted id writtenFor cookedFor)).filter (fun i =>
          articleKey lowercase i.name = key ∧ unitKey lowercase i.unit = unitKey lowercase first.unit) =
        ((first :: rest).filter fun i => unitKey lowercase i.unit = unitKey lowercase first.unit).map
          (RecipeIngredient.wanted id writtenFor cookedFor) := by
      rw [← hfilter, List.filter_map]
      refine congrArg _ ?_
      rw [List.filter_filter (l := ingredients.filter _)]
      refine List.filter_congr fun i _ => ?_
      rw [Function.comp_apply, Bool.decide_and]
      exact Bool.and_comm _ _
    have hfirst : (first.wanted id writtenFor cookedFor).quantity = some q := hq
    rw [wantedIn, hclass, List.filter_cons, if_pos (by simp), List.map_cons, List.map_cons,
      List.sum_cons, List.filter_map, List.map_map, List.map_map, hfirst]
    rfl

variable (lowercase recipeId writtenFor cookedFor) in
theorem exists_need {i : RecipeIngredient} (hi : i ∈ ingredients) (hrequired : i.isOptional = false) :
    ∃ need ∈ needs lowercase id recipeId ingredients writtenFor cookedFor,
      articleKey lowercase need.name = articleKey lowercase i.name := by
  have hmem : i ∈ (ingredients.filter fun i => !i.isOptional).filter fun j =>
      articleKey lowercase j.name = articleKey lowercase i.name :=
    List.mem_filter.mpr ⟨List.mem_filter.mpr ⟨hi, by simp [hrequired]⟩, by simp⟩
  obtain ⟨first, rest, hcons⟩ := List.exists_cons_of_ne_nil (List.ne_nil_of_mem hmem)
  refine ⟨_, mem_needs.mpr ⟨_, first, rest, hcons, rfl⟩, ?_⟩
  have hfirst : first ∈ (ingredients.filter fun i => !i.isOptional).filter fun j =>
      articleKey lowercase j.name = articleKey lowercase i.name := hcons ▸ List.mem_cons_self
  rw [PlannedLine.name_addAll, PlannedIngredient.line, Stocks.articleKey_trim]
  simpa using (List.mem_filter.mp hfirst).2

end

/-! ### What is missing -/

section

variable [DecidableEq U] {stock lines : List (StockLine U)} {name unit : Text}

omit [DecidableEq U] in
theorem total_eq_sum : total id lines = (lines.map StockLine.quantity).sum := by
  have hfold : ∀ (lines : List (StockLine U)) (sum : ℚ),
      lines.foldl (fun sum s => id (sum + s.quantity)) sum = sum + (lines.map StockLine.quantity).sum := by
    intro lines
    induction lines with
    | nil => simp
    | cons s lines ih => intro sum; rw [List.foldl_cons, ih, List.map_cons, List.sum_cons, id, add_assoc]
  rw [total, hfold, zero_add]

omit [DecidableEq U] in
theorem sum_max_quantity : (lines.map fun s => max s.quantity 0).sum =
    ((lines.filter fun s => 0 < s.quantity).map StockLine.quantity).sum := by
  induction lines with
  | nil => rfl
  | cons s lines ih =>
    rw [List.map_cons, List.sum_cons, ih, List.filter_cons]
    by_cases hs : 0 < s.quantity
    · rw [if_pos (decide_eq_true hs), List.map_cons, List.sum_cons, max_eq_left hs.le]
    · rw [if_neg (by simpa using hs), max_eq_right (not_lt.mp hs), zero_add]

theorem held_of_mem (hids : (stock.map StockLine.id).Nodup) {s : StockLine U} (hs : s ∈ stock) :
    held stock s.id = s.quantity := by
  have hfind : stock.find? (fun l => l.id = s.id) = some s := by
    induction stock with
    | nil => exact absurd hs List.not_mem_nil
    | cons l stock ih =>
      obtain ⟨hl, hids⟩ := List.nodup_cons.mp hids
      rcases List.mem_cons.mp hs with rfl | hs
      · simp
      · have hne : l.id ≠ s.id := fun h => hl (List.mem_map.mpr ⟨s, hs, h.symm⟩)
        rw [List.find?_cons_of_neg (by simpa using hne)]
        exact ih hids hs
  rw [held, hfind]
  rfl

variable (lowercase) in
/-- What a need with a quantity is held against: what the stock has of its name and unit. -/
theorem total_linesFor (hids : (stock.map StockLine.id).Nodup) {need : PlannedLine R}
    (hquantity : need.quantity.isSome) :
    total id (linesFor lowercase need stock) =
      leftIn (held stock) (ofClass lowercase (articleKey lowercase need.name)
        (articleKey lowercase (need.unit.getD [])) stock) := by
  have hlines : linesFor lowercase need stock = (ofClass lowercase (articleKey lowercase need.name)
      (articleKey lowercase (need.unit.getD [])) stock).filter fun s => 0 < s.quantity := by
    rw [linesFor, ofClass, List.filter_filter]
    refine List.filter_congr fun s _ => ?_
    simp [Option.isSome_iff_ne_none.mp hquantity]
  have hheld : leftIn (held stock) (ofClass lowercase (articleKey lowercase need.name)
      (articleKey lowercase (need.unit.getD [])) stock) =
      ((ofClass lowercase (articleKey lowercase need.name) (articleKey lowercase (need.unit.getD []))
        stock).map fun s => max s.quantity 0).sum := by
    rw [leftIn]
    refine congrArg List.sum (List.map_congr_left fun s hs => ?_)
    rw [held_of_mem hids (mem_ofClass.mp hs).1]
  rw [total_eq_sum, hlines, hheld, sum_max_quantity]

/-- Nothing is missing: each need without a quantity has a line that is not empty, each need with one is
    held in full. -/
theorem missing_eq_nil (hids : (stock.map StockLine.id).Nodup) {needs : List (PlannedLine R)} :
    missing lowercase id needs stock = [] ↔ ∀ need ∈ needs,
      (need.quantity = none →
        ∃ s ∈ stock, 0 < s.quantity ∧ articleKey lowercase s.name = articleKey lowercase need.name) ∧
      ∀ wanted, need.quantity = some wanted →
        wanted ≤ leftIn (held stock) (ofClass lowercase (articleKey lowercase need.name)
          (articleKey lowercase (need.unit.getD [])) stock) := by
  rw [missing, List.filterMap_eq_nil_iff]
  refine forall₂_congr fun need _ => ?_
  rcases hquantity : need.quantity with _ | wanted
  · have hlines : linesFor lowercase need stock = [] ↔ ¬∃ s ∈ stock, 0 < s.quantity ∧
        articleKey lowercase s.name = articleKey lowercase need.name := by
      rw [linesFor, List.filter_eq_nil_iff]
      simp [hquantity]
    rw [lacking, hquantity]
    by_cases hsome : ∃ s ∈ stock, 0 < s.quantity ∧
        articleKey lowercase s.name = articleKey lowercase need.name
    · simp only [if_neg (hlines.not.mpr (not_not_intro hsome)), hsome]
      simp
    · simp only [if_pos (hlines.mpr hsome), hsome]
      simp
  · have htotal := total_linesFor lowercase hids (hquantity ▸ rfl : need.quantity.isSome)
    rw [lacking, hquantity]
    simp only [htotal, id_eq]
    constructor
    · intro hnone
      refine ⟨fun h => absurd h (by simp), fun w hw => ?_⟩
      obtain rfl := Option.some.inj hw
      by_contra hlt
      rw [if_pos (sub_pos.mpr (not_le.mp hlt))] at hnone
      exact absurd hnone (by simp)
    · rintro ⟨_, hle⟩
      rw [if_neg (not_lt.mpr (sub_nonpos.mpr (hle wanted rfl)))]

end

/-! ### The two screens -/

section

variable [LinearOrder U] {stock : List (StockLine U)} {ingredients : List RecipeIngredient}
  {writtenFor cookedFor : Option ℤ} {left : U → ℚ} {name unit : Text}

omit [LinearOrder U] in
/-- A quantity brought to a number of people is no less than 0. -/
theorem wanted_nonneg (hquantity : ∀ i ∈ ingredients, ∀ q, i.quantity = some q → 0 ≤ q)
    (hcooked : ∀ n, cookedFor = some n → 0 ≤ n) {i : RecipeIngredient} (hi : i ∈ ingredients) {w : ℚ}
    (hw : (i.wanted id writtenFor cookedFor).quantity = some w) : 0 ≤ w := by
  have hraw := hquantity i hi
  rw [RecipeIngredient.wanted] at hw
  rcases hq : i.quantity with _ | q
  · rw [hq] at hw
    exact absurd hw (by simp [scaleQuantity])
  · rw [hq] at hw
    have hnonneg : 0 ≤ q := hraw q hq
    rcases writtenFor with _ | b
    · obtain rfl : q = w := by simpa [scaleQuantity] using hw
      exact hnonneg
    · rcases cookedFor with _ | t
      · obtain rfl : q = w := by simpa [scaleQuantity] using hw
        exact hnonneg
      · by_cases hb : 0 < b
        · obtain rfl : q * t / b = w := by simpa [scaleQuantity, hb] using hw
          have ht : (0 : ℚ) ≤ t := by exact_mod_cast hcooked t rfl
          have hb : (0 : ℚ) < b := by exact_mod_cast hb
          exact div_nonneg (mul_nonneg hnonneg ht) hb.le
        · obtain rfl : q = w := by simpa [scaleQuantity, hb] using hw
          exact hnonneg

/-- RUN: required ingredients all taken in full want no more than there is. -/
theorem wantedIn_le_of_full (hids : (stock.map StockLine.id).Nodup)
    (hwanted : ∀ i ∈ ingredients, ∀ w, (i.wanted id writtenFor cookedFor).quantity = some w → 0 ≤ w)
    (hfull : ∀ (n : ℕ) (i : RecipeIngredient) (p : Proposal U), ingredients[n]? = some i →
      (proposeFrom lowercase id stock left
        (ingredients.map (RecipeIngredient.wanted id writtenFor cookedFor)))[n]? = some p →
      i.isOptional = false →
      ∀ w, (i.wanted id writtenFor cookedFor).quantity = some w → p.quantity = w) :
    wantedIn lowercase name unit ((ingredients.filter fun i => !i.isOptional).map
      (RecipeIngredient.wanted id writtenFor cookedFor)) ≤
      leftIn left (ofClass lowercase name unit stock) := by
  induction ingredients generalizing left with
  | nil => exact leftIn_nonneg
  | cons i ingredients ih =>
    set ing := i.wanted id writtenFor cookedFor with hing
    have hone : ∀ w, ing.quantity = some w → 0 ≤ w := hwanted i List.mem_cons_self
    have hrest := ih (fun j hj => hwanted j (List.mem_cons_of_mem _ hj))
      (fun n j p hj hp => hfull (n + 1) j p hj hp)
    have hle : leftIn (proposeOne lowercase id stock left ing).2 (ofClass lowercase name unit stock) ≤
        leftIn left (ofClass lowercase name unit stock) := by
      by_cases hclass : articleKey lowercase ing.name = name ∧ unitKey lowercase ing.unit = unit
      · obtain ⟨rfl, rfl⟩ := hclass
        rw [proposeOne_left hids hone]
        refine max_le (sub_le_self _ ?_) leftIn_nonneg
        rcases hq : ing.quantity with _ | w
        · exact le_rfl
        · exact hone w hq
      · exact (proposeOne_other hids hone (not_and_or.mp hclass)).le
    rw [List.filter_cons]
    by_cases hoptional : i.isOptional
    · rw [if_neg (by simp [hoptional])]
      exact hrest.trans hle
    · rw [if_pos (by simp [hoptional]), List.map_cons, wantedIn_cons]
      split
      · rename_i hclass
        obtain ⟨rfl, rfl⟩ := hclass
        rcases hq : ing.quantity with _ | w
        · rw [Option.getD_none, zero_add]
          exact hrest.trans hle
        · obtain ⟨hgets, hleft⟩ := proposeOne_quantity left hids (hone w hq) hq
          have hgot := hfull 0 i _ rfl rfl (by simpa using hoptional) w hq
          rw [hgets] at hgot
          rw [hleft, hgot] at hrest
          rw [Option.getD_some]
          linarith
      · rw [zero_add]
        exact hrest.trans hle

omit [LinearOrder U] in
/-- Optional ingredients of another name or unit want nothing of this one. -/
theorem wantedIn_required {ings : List RecipeIngredient}
    (h : ∀ j ∈ ings, j.isOptional →
      ¬(articleKey lowercase j.name = name ∧ unitKey lowercase j.unit = unit)) :
    wantedIn lowercase name unit (ings.map (RecipeIngredient.wanted id writtenFor cookedFor)) =
      wantedIn lowercase name unit ((ings.filter fun i => !i.isOptional).map
        (RecipeIngredient.wanted id writtenFor cookedFor)) := by
  induction ings with
  | nil => rfl
  | cons j ings ih =>
    have hrest := ih fun i hi => h i (List.mem_cons_of_mem _ hi)
    rw [List.map_cons, wantedIn_cons, hrest, List.filter_cons]
    by_cases hoptional : j.isOptional
    · have hout : ¬(articleKey lowercase (j.wanted id writtenFor cookedFor).name = name ∧
          unitKey lowercase (j.wanted id writtenFor cookedFor).unit = unit) :=
        h j List.mem_cons_self hoptional
      rw [if_neg hout, if_neg (by simp [hoptional]), zero_add]
    · have hkept : (!j.isOptional) = true := by simp [hoptional]
      rw [if_pos hkept, List.map_cons, wantedIn_cons]

variable (lowercase) in
omit [LinearOrder U] in
/-- An ingredient and the required ones before it want no more than all the required ones. -/
theorem wantedIn_take_add_le (hquantity : ∀ i ∈ ingredients, ∀ q, i.quantity = some q → 0 ≤ q)
    (hcooked : ∀ m, cookedFor = some m → 0 ≤ m) {n : ℕ} {i : RecipeIngredient}
    (hi : ingredients[n]? = some i) (hrequired : i.isOptional = false) {w : ℚ}
    (hw : (i.wanted id writtenFor cookedFor).quantity = some w) :
    wantedIn lowercase (articleKey lowercase i.name) (unitKey lowercase i.unit)
        (((ingredients.take n).filter fun i => !i.isOptional).map
          (RecipeIngredient.wanted id writtenFor cookedFor)) + w ≤
      wantedIn lowercase (articleKey lowercase i.name) (unitKey lowercase i.unit)
        ((ingredients.filter fun i => !i.isOptional).map
          (RecipeIngredient.wanted id writtenFor cookedFor)) := by
  obtain ⟨hlt, hel⟩ := List.getElem?_eq_some_iff.mp hi
  have hsplit : ingredients = ingredients.take n ++ i :: ingredients.drop (n + 1) := by
    rw [← hel, ← List.drop_eq_getElem_cons hlt, List.take_append_drop]
  have hfilter : ingredients.filter (fun i => !i.isOptional) =
      (ingredients.take n).filter (fun i => !i.isOptional) ++
        i :: (ingredients.drop (n + 1)).filter (fun i => !i.isOptional) := by
    conv_lhs => rw [hsplit, List.filter_append, List.filter_cons, if_pos (by simp [hrequired])]
  have hclass : articleKey lowercase (i.wanted id writtenFor cookedFor).name = articleKey lowercase i.name ∧
      unitKey lowercase (i.wanted id writtenFor cookedFor).unit = unitKey lowercase i.unit := ⟨rfl, rfl⟩
  have hafter : 0 ≤ wantedIn lowercase (articleKey lowercase i.name) (unitKey lowercase i.unit)
      (((ingredients.drop (n + 1)).filter fun i => !i.isOptional).map
        (RecipeIngredient.wanted id writtenFor cookedFor)) := by
    refine wantedIn_nonneg lowercase _ _ fun ing hing w hw => ?_
    obtain ⟨j, hj, rfl⟩ := List.mem_map.mp hing
    exact wanted_nonneg hquantity hcooked (List.mem_of_mem_drop (List.mem_of_mem_filter hj)) hw
  rw [hfilter, List.map_append, wantedIn_append, List.map_cons, wantedIn_cons, if_pos hclass, hw,
    Option.getD_some]
  linarith

/-- CORRECT: with nothing missing, a required ingredient is not capped where its name comes first with a
    quantity in its unit, and has a line where its need is not of 0; and where each required ingredient
    is taken in full, or has a line that is not empty, nothing is missing. -/
theorem missing_agrees (recipeId : R) (hids : (stock.map StockLine.id).Nodup)
    (hquantity : ∀ i ∈ ingredients, ∀ q, i.quantity = some q → 0 ≤ q)
    (hcooked : ∀ m, cookedFor = some m → 0 ≤ m) :
    (missing lowercase id (needs lowercase id recipeId ingredients writtenFor cookedFor) stock = [] →
      ∀ (n : ℕ) (i : RecipeIngredient) (p : Proposal U), ingredients[n]? = some i →
        i.isOptional = false →
        (propose lowercase id
          (ingredients.map (RecipeIngredient.wanted id writtenFor cookedFor)) stock)[n]? = some p →
        ((∀ first, firstOf lowercase (articleKey lowercase i.name) ingredients = some first →
            first.quantity.isSome ∧ unitKey lowercase first.unit = unitKey lowercase i.unit) →
          (∀ j ∈ ingredients.take n, j.isOptional →
            ¬(articleKey lowercase j.name = articleKey lowercase i.name ∧
              unitKey lowercase j.unit = unitKey lowercase i.unit)) →
          p.warning ≠ some .Capped) ∧
        ((∀ need ∈ needs lowercase id recipeId ingredients writtenFor cookedFor,
            articleKey lowercase need.name = articleKey lowercase i.name → need.quantity ≠ some 0) →
          p.warning ≠ some .NoStock)) ∧
    ((∀ (n : ℕ) (i : RecipeIngredient) (p : Proposal U), ingredients[n]? = some i →
        i.isOptional = false →
        (propose lowercase id
          (ingredients.map (RecipeIngredient.wanted id writtenFor cookedFor)) stock)[n]? = some p →
        match (i.wanted id writtenFor cookedFor).quantity with
        | some w => p.quantity = w
        | none => ∃ line ∈ stock, 0 < line.quantity ∧ p.lots = [⟨line.id, 0⟩]) →
      missing lowercase id (needs lowercase id recipeId ingredients writtenFor cookedFor) stock = []) := by
  have hwanted : ∀ i ∈ ingredients, ∀ w, (i.wanted id writtenFor cookedFor).quantity = some w → 0 ≤ w :=
    fun i hi w => wanted_nonneg hquantity hcooked hi
  have hwantedRequired : ∀ ing ∈ (ingredients.filter fun i => !i.isOptional).map
      (RecipeIngredient.wanted id writtenFor cookedFor), ∀ w, ing.quantity = some w → 0 ≤ w :=
    fun ing hing w hw => by
      obtain ⟨j, hj, rfl⟩ := List.mem_map.mp hing
      exact hwanted j (List.mem_of_mem_filter hj) w hw
  have hget : ∀ {n i}, ingredients[n]? = some i → (propose lowercase id
      (ingredients.map (RecipeIngredient.wanted id writtenFor cookedFor)) stock)[n]? =
      some (proposeOne lowercase id stock (leftAfter lowercase stock (held stock)
        ((ingredients.take n).map (RecipeIngredient.wanted id writtenFor cookedFor)))
        (i.wanted id writtenFor cookedFor)).1 := fun {n i} hi => by
    rw [propose, getElem?_proposeFrom, List.getElem?_map, hi, ← List.map_take]
    rfl
  constructor
  · intro hmissing n i p hi hrequired hp
    have hall := (missing_eq_nil hids).mp hmissing
    obtain rfl := Option.some.inj ((hget hi).symm.trans hp)
    obtain ⟨need, hneed, hname⟩ := exists_need lowercase recipeId writtenFor cookedFor
      (List.mem_of_getElem? hi) hrequired
    obtain ⟨first, hfirst⟩ := needOf_of_mem hneed
    have hhead := hfirst.head
    rw [hname] at hhead
    constructor
    · intro hsame hbefore hcapped
      obtain ⟨hsome, hunit⟩ := hsame first hhead
      obtain ⟨hneedUnit, hneedQuantity⟩ := hfirst.summed hsome
      rw [hname, hunit] at hneedQuantity
      have hheld := (hall need hneed).2 _ hneedQuantity
      rw [hname, hneedUnit, hunit] at hheld
      obtain ⟨w, hw, hlt⟩ := lt_of_capped hcapped
      have hleft : leftIn (leftAfter lowercase stock (held stock)
          ((ingredients.take n).map (RecipeIngredient.wanted id writtenFor cookedFor)))
          (ofClass lowercase (articleKey lowercase i.name) (unitKey lowercase i.unit) stock) =
          max (leftIn (held stock) (ofClass lowercase (articleKey lowercase i.name)
            (unitKey lowercase i.unit) stock) -
            wantedIn lowercase (articleKey lowercase i.name) (unitKey lowercase i.unit)
              ((ingredients.take n).map (RecipeIngredient.wanted id writtenFor cookedFor))) 0 :=
        leftIn_leftAfter hids fun ing hing w hw => by
          obtain ⟨j, hj, rfl⟩ := List.mem_map.mp hing
          exact hwanted j (List.mem_of_mem_take hj) w hw
      have htake := wantedIn_take_add_le lowercase hquantity hcooked hi hrequired hw
      rw [(proposeOne_quantity _ hids (hwanted i (List.mem_of_getElem? hi) w hw) hw).1] at hlt
      refine absurd hlt (not_lt.mpr (le_min le_rfl (hleft ▸ le_max_of_le_left ?_)))
      rw [wantedIn_required hbefore]
      linarith
    · intro hnonzero hnoStock
      have hno := not_mem_of_noStock hnoStock
      rcases hq : need.quantity with _ | w
      · obtain ⟨s, hs, _, hsname⟩ := (hall need hneed).1 hq
        exact hno s hs (hsname.trans hname)
      · -- a need of more than 0 is held by some line
        have hpos : 0 < w := by
          have hsome := hfirst.isSome_of_some hq
          obtain rfl := Option.some.inj (hq.symm.trans (hfirst.summed hsome).2)
          have hnonneg := wantedIn_nonneg lowercase (articleKey lowercase need.name)
            (unitKey lowercase first.unit) (hwantedRequired)
          exact lt_of_le_of_ne hnonneg fun h => hnonzero need hneed hname (hq.trans (by rw [← h]))
        have hnil : ofClass lowercase (articleKey lowercase need.name)
            (articleKey lowercase (need.unit.getD [])) stock = [] :=
          List.eq_nil_iff_forall_not_mem.mpr fun s hs =>
            hno s (mem_ofClass.mp hs).1 ((mem_ofClass.mp hs).2.1.trans hname)
        have hle := (hall need hneed).2 w hq
        rw [hnil] at hle
        exact absurd hpos (not_lt.mpr hle)
  · intro hfull
    refine (missing_eq_nil hids).mpr fun need hneed => ?_
    obtain ⟨first, hfirst⟩ := needOf_of_mem hneed
    constructor
    · intro hq
      have hfq := hfirst.none_of_none hq
      obtain ⟨hfirstMem, hrequired, hname⟩ := mem_of_firstOf hfirst.head
      obtain ⟨n, hn⟩ := List.mem_iff_getElem?.mp hfirstMem
      have hline := hfull n first _ hn hrequired (hget hn)
      have hbare : (first.wanted id writtenFor cookedFor).quantity = none := by
        simp [RecipeIngredient.wanted, scaleQuantity, hfq]
      rw [hbare] at hline
      obtain ⟨line, hmem, hpos, hlots⟩ := hline
      refine ⟨line, hmem, hpos, ?_⟩
      exact (name_of_lots hids hbare hmem hlots).trans hname
    · intro w hq
      have hsome := hfirst.isSome_of_some hq
      obtain ⟨hunit, hsummed⟩ := hfirst.summed hsome
      obtain rfl := Option.some.inj (hq.symm.trans hsummed)
      rw [hunit]
      refine wantedIn_le_of_full hids hwanted fun n i p hi hp hrequired w hw => ?_
      have hgot := hfull n i p hi hrequired hp
      rw [hw] at hgot
      exact hgot

end

/-! ### One name, two units -/

section Units

/-- A litre of milk, then a little more in millilitres. -/
def twoUnits : List RecipeIngredient :=
  [⟨['L', 'a', 'i', 't'], some 1, some ['L'], false⟩, ⟨['l', 'a', 'i', 't'], some 200, some ['m', 'l'], false⟩]

/-- The litre, and half the little more. -/
def milk : List (StockLine ℕ) :=
  [⟨0, ['L', 'a', 'i', 't'], ['l'], 1, none⟩, ⟨1, ['L', 'a', 'i', 't'], ['m', 'l'], 100, none⟩]

/-- The litre alone is neither missing nor capped. -/
theorem missing_agrees_litre :
    (propose asciiLowercase id ((twoUnits.take 1).map (RecipeIngredient.wanted id none none)) milk)[0]?.map
      Proposal.warning ≠ some (some .Capped) := by
  intro hcapped
  obtain ⟨p, hp, hwarning⟩ := Option.map_eq_some_iff.mp hcapped
  exact ((missing_agrees (R := ℕ) 0 (by decide) (by decide) (by decide)).1 (by decide +kernel) 0 _ p rfl rfl
    hp).1 (by decide) (by decide) hwarning

/-- The merged need is the litre: nothing is missing, and the millilitres are capped. -/
theorem missing_disagrees : ¬∀ (ingredients : List RecipeIngredient) (stock : List (StockLine ℕ)),
    (stock.map StockLine.id).Nodup → (∀ i ∈ ingredients, ∀ q, i.quantity = some q → 0 ≤ q) →
    missing asciiLowercase id (needs asciiLowercase id 0 ingredients none none) stock = [] →
    ∀ (n : ℕ) (i : RecipeIngredient) (p : Proposal ℕ), ingredients[n]? = some i → i.isOptional = false →
      (propose asciiLowercase id (ingredients.map (RecipeIngredient.wanted id none none)) stock)[n]? = some p →
      p.warning ≠ some .Capped ∧ p.warning ≠ some .NoStock := by
  intro hclaim
  have hmissing : missing asciiLowercase id (needs asciiLowercase id 0 twoUnits none none) milk = [] := by decide +kernel
  have hcapped : (propose asciiLowercase id (twoUnits.map (RecipeIngredient.wanted id none none)) milk)[1]? =
      some ⟨[⟨1, 100⟩], 100, some .Capped⟩ := by decide +kernel
  exact (hclaim twoUnits milk (by decide) (by decide) hmissing 1 _ _ rfl rfl hcapped).1 rfl

end Units

end Home.Recipes
