import Mathlib.Algebra.BigOperators.Group.List.Basic
import ManageOurHome.Grocery.Planned

/-! @src apps/api/src/grocery_list/planned.rs | layer:proof | family:grocery list

    What a planned line counts, on exact quantities: the ingredients of its name whose unit is the first one's, each for
    the people it is cooked for. The first one alone decides of the unit, and whether there is a quantity at all.

        200 g ·2, 3 unité, 300 G   ⇒   700 g          sel (none), 5 g   ⇒   none -/

namespace Home.Grocery

open Home.Stocks (articleKey articleKey_trim)

variable {R : Type*} {lowercase : Text → Text}

/-- The unit of an ingredient, the default one if it is counted without. -/
def PlannedIngredient.normalUnit (noise : ℚ → ℚ) (ing : PlannedIngredient R) : Option Text :=
  normalizeUnit (ing.scaled noise) ing.unit

/-- What ingredients call for in a unit. -/
def sumIn (lowercase : Text → Text) (unit : Option Text) (ings : List (PlannedIngredient R)) : ℚ :=
  ((ings.filter fun ing => sameUnit lowercase unit (ing.normalUnit id)).filterMap (·.scaled id)).sum

theorem sameUnit_self (unit : Option Text) : sameUnit lowercase unit unit = true := by
  cases unit with
  | none => rfl
  | some u => exact decide_eq_true rfl

section

variable {line : PlannedLine R} {ing first : PlannedIngredient R} {ings rest : List (PlannedIngredient R)}

theorem sumIn_cons (unit : Option Text) : sumIn lowercase unit (ing :: ings) =
    (if sameUnit lowercase unit (ing.normalUnit id) then (ing.scaled id).getD 0 else 0) +
      sumIn lowercase unit ings := by
  rw [sumIn, List.filter_cons]
  split
  · cases hq : ing.scaled id with
    | none => rw [List.filterMap_cons_none hq, Option.getD_none, zero_add, sumIn]
    | some q => rw [List.filterMap_cons_some hq, List.sum_cons, Option.getD_some, sumIn]
  · rw [zero_add, sumIn]

theorem sumIn_perm {ings' : List (PlannedIngredient R)} (unit : Option Text) (h : ings.Perm ings') :
    sumIn lowercase unit ings = sumIn lowercase unit ings' := ((h.filter _).filterMap _).sum_eq

/-- A further ingredient changes nothing of a line but its quantity. -/
theorem PlannedLine.add_eq (quantity : Option ℚ) (unit : Option Text) :
    line.add lowercase id quantity unit = ⟨line.recipeId, line.name, line.quantity.map fun sum =>
      sum + if sameUnit lowercase line.unit unit then quantity.getD 0 else 0, line.unit⟩ := by
  obtain ⟨recipeId, name, sum, lineUnit⟩ := line
  unfold PlannedLine.add
  cases sum with
  | none => rfl
  | some sum =>
    cases quantity with
    | none => simp
    | some q =>
      simp only [Option.map_some, Option.getD_some, id]
      split
      · rfl
      · rw [add_zero]

/-- RUN: a line is added what the ingredients call for in its unit. -/
theorem PlannedLine.addAll_eq : line.addAll lowercase id ings = ⟨line.recipeId, line.name,
    line.quantity.map fun sum => sum + sumIn lowercase line.unit ings, line.unit⟩ := by
  induction ings generalizing line with
  | nil =>
    obtain ⟨recipeId, name, sum, unit⟩ := line
    cases sum <;> simp [addAll, sumIn]
  | cons ing ings ih =>
    rw [addAll, List.foldl_cons, ← addAll, ih, add_eq, sumIn_cons]
    simp only [Option.map_map, Function.comp_def, PlannedIngredient.normalUnit, add_assoc]
    rfl

/-- The line of a name: its first ingredient's, and the sum of those of its unit. -/
theorem line_addAll : (first.line id).addAll lowercase id rest =
    ⟨first.recipeId, trim first.name,
      (first.scaled id).map fun _ => sumIn lowercase (first.normalUnit id) (first :: rest), first.normalUnit id⟩ := by
  rw [PlannedLine.addAll_eq, PlannedIngredient.line, sumIn_cons, if_pos (sameUnit_self _)]
  cases hq : first.scaled id with
  | none => simp [PlannedIngredient.normalUnit, hq]
  | some q => simp [PlannedIngredient.normalUnit, hq]

/-- A line is the one its first ingredient and the sum of its unit make. -/
theorem mem_planLines : line ∈ planLines lowercase id ings ↔
    ∃ key first, ings.find? (fun ing => articleKey lowercase ing.name = key) = some first ∧
      line = ⟨first.recipeId, trim first.name, (first.scaled id).map fun _ =>
        sumIn lowercase (first.normalUnit id) (ings.filter fun ing => articleKey lowercase ing.name = key),
        first.normalUnit id⟩ := by
  have hhead : ∀ key first, ings.find? (fun ing => articleKey lowercase ing.name = key) = some first ↔
      ∃ rest, ings.filter (fun ing => articleKey lowercase ing.name = key) = first :: rest := by
    intro key first
    rw [← List.head?_filter, List.head?_eq_some_iff]
  rw [planLines, List.mem_map]
  constructor
  · rintro ⟨⟨key, line⟩, hmem, rfl⟩
    obtain ⟨first, rest, hfilter, rfl⟩ := mem_planned.mp hmem
    exact ⟨key, first, (hhead key first).mpr ⟨rest, hfilter⟩, by rw [line_addAll, hfilter]⟩
  · rintro ⟨key, first, hfind, rfl⟩
    obtain ⟨rest, hfilter⟩ := (hhead key first).mp hfind
    refine ⟨(key, (first.line id).addAll lowercase id rest), mem_planned.mpr ⟨first, rest, hfilter, rfl⟩, ?_⟩
    rw [line_addAll, hfilter]

/-- The names of the lines, in the order they come first. -/
theorem keys_planLines : (planLines lowercase id ings).map (fun line => articleKey lowercase line.name) =
    (ings.map fun ing => articleKey lowercase ing.name).eraseDups := by
  have hkeys : (planned lowercase id ings).map Prod.fst =
      (ings.map fun ing => articleKey lowercase ing.name).eraseDups := by
    rw [planned_eq, Grouped.keys_groups]
  rw [← hkeys, planLines, List.map_map]
  refine List.map_congr_left ?_
  rintro ⟨key, line⟩ hmem
  obtain ⟨first, rest, hfilter, rfl⟩ := mem_planned.mp hmem
  have hfirst : first ∈ ings.filter fun ing => articleKey lowercase ing.name = key :=
    hfilter ▸ List.mem_cons_self
  rw [Function.comp_apply, line_addAll, articleKey_trim]
  exact of_decide_eq_true (List.mem_filter.mp hfirst).2

theorem nodup_planLines : ((planLines lowercase id ings).map fun line => articleKey lowercase line.name).Nodup := by
  rw [keys_planLines]
  exact Grouped.nodup_eraseDups _

/-- ORDER: only which ingredient comes first under each name matters. -/
theorem planLines_perm {ings' : List (PlannedIngredient R)} (hperm : ings.Perm ings')
    (hfirst : ∀ key, ings.find? (fun ing => articleKey lowercase ing.name = key) =
      ings'.find? fun ing => articleKey lowercase ing.name = key) :
    (planLines lowercase id ings).Perm (planLines lowercase id ings') := by
  refine (List.perm_ext_iff_of_nodup nodup_planLines.of_map nodup_planLines.of_map).mpr ?_
  intro line
  rw [mem_planLines, mem_planLines]
  refine exists_congr fun key => exists_congr fun first => ?_
  rw [hfirst, sumIn_perm _ (hperm.filter _)]

end

/-- PLANNED: one line for each name, in the order they come first, from the first ingredient of the name; it counts the
    ingredients of the name and of its unit, and nothing when the first has no quantity; in another order that keeps
    the first ones, the lines are the same. -/
theorem planLines_sums (lowercase : Text → Text) (ings : List (PlannedIngredient R)) :
    ((planLines lowercase id ings).map fun line => articleKey lowercase line.name).Nodup ∧
    (planLines lowercase id ings).map (fun line => articleKey lowercase line.name) =
      (ings.map fun ing => articleKey lowercase ing.name).eraseDups ∧
    (∀ line ∈ planLines lowercase id ings, ∃ first,
      ings.find? (fun ing => articleKey lowercase ing.name = articleKey lowercase line.name) = some first ∧
      line.recipeId = first.recipeId ∧ line.name = trim first.name ∧ line.unit = first.normalUnit id ∧
      line.quantity = (first.scaled id).map fun _ =>
        ((ings.filter fun ing => articleKey lowercase ing.name = articleKey lowercase line.name ∧
          sameUnit lowercase (first.normalUnit id) (ing.normalUnit id)).filterMap (·.scaled id)).sum) ∧
    ∀ ings' : List (PlannedIngredient R), ings.Perm ings' →
      (∀ key, ings.find? (fun ing => articleKey lowercase ing.name = key) =
        ings'.find? fun ing => articleKey lowercase ing.name = key) →
      (planLines lowercase id ings).Perm (planLines lowercase id ings') := by
  refine ⟨nodup_planLines, keys_planLines, ?_, fun ings' => planLines_perm⟩
  intro line hline
  obtain ⟨key, first, hfind, rfl⟩ := mem_planLines.mp hline
  have hkey : articleKey lowercase first.name = key := by simpa using List.find?_some hfind
  subst hkey
  refine ⟨first, by simpa using hfind, rfl, rfl, rfl, ?_⟩
  simp only [sumIn, List.filter_filter, articleKey_trim, Bool.decide_and, Bool.decide_eq_true, Bool.and_comm]

end Home.Grocery
