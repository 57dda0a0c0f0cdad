import Mathlib.Algebra.BigOperators.Group.List.Basic
import ManageOurHome.Recipes.Outcome

/-! @src apps/api/src/recipes/outcome.rs | layer:proof | family:recipes

    The products used that a recipe does not call for, added to it, on exact quantities. They are grouped by name, and
    counted in the unit of the first line of the name; the recipe that has them then has nothing more to be added.

        riz 100 g, Riz 2 unité, riz 50 G, cooked for 6, written for 4   ⇒   riz 100 g -/

namespace Home.Recipes

open Home.Stocks (articleKey articleKey_trim)

variable {lowercase : Text → Text}

/-- The key of a product. -/
def Used.key (lowercase : Text → Text) (u : Used) : Text := articleKey lowercase u.name

/-- The ingredient a product makes when it is the first of its name. -/
def Used.ingredient (u : Used) : NewIngredient := ⟨trim u.name, u.quantity, trim u.unit⟩

/-- A further product of its name. -/
def NewIngredient.join (lowercase : Text → Text) (noise : ℚ → ℚ) (ing : NewIngredient) (u : Used) : NewIngredient :=
  if articleKey lowercase ing.unit = articleKey lowercase u.unit then
    { ing with quantity := noise (ing.quantity + u.quantity) } else ing

/-- What products hold in a unit. -/
def usedIn (lowercase : Text → Text) (unit : Text) (used : List Used) : ℚ :=
  ((used.filter fun u => articleKey lowercase u.unit = articleKey lowercase unit).map Used.quantity).sum

/-- The products the recipe does not call for. -/
def freshOf (lowercase : Text → Text) (used : List Used) (existing : List Text) : List Used :=
  used.filter fun u => !namesAnIngredient lowercase u.name existing

section

variable {noise : ℚ → ℚ} {u : Used} {used : List Used} {existing : List Text} {cookedFor writtenFor : Option ℤ}
  {ing : NewIngredient} {key : Text}

theorem addUsed_eq {added : List (Text × NewIngredient)} : addUsed lowercase noise u added =
    Grouped.into (Used.key lowercase) Used.ingredient (NewIngredient.join lowercase noise) u added := by
  induction added with
  | nil => rfl
  | cons head added ih =>
    obtain ⟨key, ing⟩ := head
    rw [addUsed, Grouped.into, ih, NewIngredient.join, Used.key]
    split_ifs <;> rfl

theorem ingredientsToAdd_eq : ingredientsToAdd lowercase noise used existing cookedFor writtenFor =
    (Grouped.groups (Used.key lowercase) Used.ingredient (NewIngredient.join lowercase noise)
      (freshOf lowercase used existing)).map fun p => { p.2 with quantity :=
        (Grocery.scaleQuantity noise (some p.2.quantity) cookedFor writtenFor).getD p.2.quantity } := by
  simp only [ingredientsToAdd, addUsed_eq, Grouped.groups, freshOf]

theorem namesAnIngredient_iff {name : Text} : namesAnIngredient lowercase name existing = true ↔
    articleKey lowercase name ∈ existing.map (articleKey lowercase) := by
  rw [namesAnIngredient, List.any_eq_true, List.mem_map]
  simp

theorem mem_freshOf : u ∈ freshOf lowercase used existing ↔
    u ∈ used ∧ u.key lowercase ∉ existing.map (articleKey lowercase) := by
  rw [freshOf, List.mem_filter, Bool.not_eq_true', ← Bool.not_eq_true, namesAnIngredient_iff, Used.key]

/-- RUN: an ingredient is added what the products hold in its unit. -/
theorem foldl_join : used.foldl (NewIngredient.join lowercase id) ing =
    { ing with quantity := ing.quantity + usedIn lowercase ing.unit used } := by
  induction used generalizing ing with
  | nil => simp [usedIn]
  | cons u used ih =>
    rw [List.foldl_cons, ih, NewIngredient.join]
    by_cases hunit : articleKey lowercase ing.unit = articleKey lowercase u.unit
    · rw [if_pos hunit]
      simp [usedIn, hunit, add_assoc]
    · rw [if_neg hunit]
      simp [usedIn, Ne.symm hunit]

/-- The products of a name the recipe does not have are all fresh. -/
theorem ofKey_freshOf (h : key ∉ existing.map (articleKey lowercase)) :
    Grouped.ofKey (Used.key lowercase) key (freshOf lowercase used existing) =
      used.filter fun u => articleKey lowercase u.name = key := by
  rw [Grouped.ofKey, freshOf, List.filter_filter]
  refine List.filter_congr fun u _ => ?_
  by_cases hkey : articleKey lowercase u.name = key
  · have hfresh : namesAnIngredient lowercase u.name existing = false := by
      rw [← Bool.not_eq_true, namesAnIngredient_iff, hkey]
      exact h
    simp [Used.key, hkey, hfresh]
  · simp [Used.key, hkey]

/-- What an ingredient is added from. -/
theorem mem_ingredientsToAdd (h : ing ∈ ingredientsToAdd lowercase id used existing cookedFor writtenFor) :
    articleKey lowercase ing.name ∉ existing.map (articleKey lowercase) ∧
    ∃ first rest, (used.filter fun u => articleKey lowercase u.name = articleKey lowercase ing.name) = first :: rest ∧
      ing.name = trim first.name ∧ ing.unit = trim first.unit ∧
      some ing.quantity = Grocery.scaleQuantity id (some (usedIn lowercase first.unit (first :: rest)))
        cookedFor writtenFor := by
  rw [ingredientsToAdd_eq] at h
  obtain ⟨⟨key, group⟩, hmem, rfl⟩ := List.mem_map.mp h
  obtain ⟨first, rest, hof, rfl⟩ := Grouped.exists_of_mem_groups hmem
  have hfirst := Grouped.key_of_mem_ofKey (hof ▸ List.mem_cons_self)
  obtain ⟨-, hnew⟩ := mem_freshOf.mp hfirst.1
  have hkey : articleKey lowercase first.name = key := hfirst.2
  rw [Used.key, hkey] at hnew
  rw [ofKey_freshOf hnew] at hof
  have hgroup : rest.foldl (NewIngredient.join lowercase id) first.ingredient =
      ⟨trim first.name, usedIn lowercase first.unit (first :: rest), trim first.unit⟩ := by
    rw [foldl_join]
    simp [Used.ingredient, usedIn, articleKey_trim]
  rw [hgroup]
  simp only [articleKey_trim, hkey]
  refine ⟨hnew, first, rest, hof, rfl, rfl, ?_⟩
  have hsome : (Grocery.scaleQuantity id (some (usedIn lowercase first.unit (first :: rest))) cookedFor
      writtenFor).isSome := by
    unfold Grocery.scaleQuantity
    split
    · split <;> rfl
    · rfl
  obtain ⟨q, hq⟩ := Option.isSome_iff_exists.mp hsome
  rw [hq, Option.getD_some]

/-- The names added, in the order they come first. -/
theorem keys_ingredientsToAdd : (ingredientsToAdd lowercase id used existing cookedFor writtenFor).map
    (fun ing => articleKey lowercase ing.name) =
      ((freshOf lowercase used existing).map (Used.key lowercase)).eraseDups := by
  have hkeys : (Grouped.groups (Used.key lowercase) Used.ingredient (NewIngredient.join lowercase id)
      (freshOf lowercase used existing)).map Prod.fst = _ := Grouped.keys_groups
  rw [← hkeys, ingredientsToAdd_eq, List.map_map]
  refine List.map_congr_left ?_
  rintro ⟨key, group⟩ hmem
  obtain ⟨first, rest, hof, rfl⟩ := Grouped.exists_of_mem_groups hmem
  have hfirst := Grouped.key_of_mem_ofKey (hof ▸ List.mem_cons_self)
  rw [foldl_join, ← hfirst.2, Used.key]
  exact articleKey_trim _

/-- A recipe that has the products of every name has nothing to be added. -/
theorem ingredientsToAdd_eq_nil
    (h : ∀ u ∈ used, u.key lowercase ∈ existing.map (articleKey lowercase)) :
    ingredientsToAdd lowercase id used existing cookedFor writtenFor = [] := by
  have hfresh : freshOf lowercase used existing = [] :=
    List.eq_nil_iff_forall_not_mem.mpr fun u hu => (mem_freshOf.mp hu).2 (h u (mem_freshOf.mp hu).1)
  rw [ingredientsToAdd_eq, hfresh]
  rfl

end

/-- ONCE: one ingredient for each name the recipe does not have, in the order the products come, with what was used of
    the name in the unit of its first line, for the people the recipe is written for; then none is left to add. -/
theorem ingredientsToAdd_once (lowercase : Text → Text) (used : List Used) (existing : List Text)
    (cookedFor writtenFor : Option ℤ) :
    let added := ingredientsToAdd lowercase id used existing cookedFor writtenFor
    (added.map fun ing => articleKey lowercase ing.name).Nodup ∧
    (∀ key, key ∈ added.map (fun ing => articleKey lowercase ing.name) ↔
      key ∈ used.map (fun u => articleKey lowercase u.name) ∧ key ∉ existing.map (articleKey lowercase)) ∧
    (∀ ing ∈ added, ∃ first rest,
      (used.filter fun u => articleKey lowercase u.name = articleKey lowercase ing.name) = first :: rest ∧
      ing.name = trim first.name ∧ ing.unit = trim first.unit ∧
      ing.quantity = (((first :: rest).filter fun u => articleKey lowercase u.unit = articleKey lowercase first.unit).map
        Used.quantity).sum * match cookedFor, writtenFor with
          | some cooked, some written => if 0 < cooked then (written : ℚ) / cooked else 1
          | _, _ => 1) ∧
    ingredientsToAdd lowercase id used (existing ++ added.map NewIngredient.name) cookedFor writtenFor = [] := by
  intro added
  have hkeys : ∀ key, key ∈ added.map (fun ing => articleKey lowercase ing.name) ↔
      key ∈ used.map (fun u => articleKey lowercase u.name) ∧ key ∉ existing.map (articleKey lowercase) := by
    intro key
    rw [keys_ingredientsToAdd, List.mem_eraseDups, List.mem_map, List.mem_map]
    constructor
    · rintro ⟨u, hu, rfl⟩
      exact ⟨⟨u, (mem_freshOf.mp hu).1, rfl⟩, (mem_freshOf.mp hu).2⟩
    · rintro ⟨⟨u, hu, rfl⟩, hnew⟩
      exact ⟨u, mem_freshOf.mpr ⟨hu, hnew⟩, rfl⟩
  refine ⟨?_, hkeys, ?_, ?_⟩
  · rw [keys_ingredientsToAdd]
    exact Grouped.nodup_eraseDups _
  · intro ing hing
    obtain ⟨-, first, rest, hof, hname, hunit, hquantity⟩ := mem_ingredientsToAdd hing
    refine ⟨first, rest, hof, hname, hunit, ?_⟩
    rw [← usedIn]
    unfold Grocery.scaleQuantity at hquantity
    cases cookedFor with
    | none => simpa using hquantity
    | some cooked =>
      cases writtenFor with
      | none => simpa using hquantity
      | some written =>
        simp only [id] at hquantity ⊢
        split at hquantity
        · rename_i hpos
          rw [if_pos hpos, Option.some.inj hquantity, mul_div_assoc]
        · rename_i hpos
          rw [if_neg hpos, mul_one]
          exact Option.some.inj hquantity
  · refine ingredientsToAdd_eq_nil fun u hu => ?_
    rw [List.map_append, List.mem_append, List.map_map]
    by_cases hnew : u.key lowercase ∈ existing.map (articleKey lowercase)
    · exact .inl hnew
    · exact .inr ((hkeys _).mpr ⟨List.mem_map.mpr ⟨u, hu, rfl⟩, hnew⟩)

end Home.Recipes
