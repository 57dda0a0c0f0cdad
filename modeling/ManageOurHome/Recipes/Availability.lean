import ManageOurHome.Recipes.Outcome

/-! @src apps/api/src/recipes/availability.rs | layer:model | family:recipes

    What the stock lacks of a planned recipe: its required ingredients as the grocery list merges them,
    each held against the lines of its name, and of its unit when it has a quantity. -/

namespace Home.Recipes

open Home.Stocks (articleKey)
open Home.Grocery (PlannedIngredient PlannedLine planLines)

variable {U R : Type*}

/-- One ingredient of a planned recipe, as written. -/
structure RecipeIngredient where
  name : Text
  quantity : Option ℚ
  unit : Option Text
  isOptional : Bool
  deriving DecidableEq

variable (lowercase : Text → Text) (noise : ℚ → ℚ)

/-- What a planned recipe needs. -/
def needs (recipeId : R) (ingredients : List RecipeIngredient) (writtenFor cookedFor : Option ℤ) :
    List (PlannedLine R) :=
  planLines lowercase noise ((ingredients.filter fun i => !i.isOptional).map fun i =>
    ⟨recipeId, i.name, i.quantity, i.unit, writtenFor, cookedFor⟩)

/-- The stock lines a need is matched to. -/
def linesFor (need : PlannedLine R) (stock : List (StockLine U)) : List (StockLine U) :=
  stock.filter fun s => 0 < s.quantity ∧ articleKey lowercase s.name = articleKey lowercase need.name ∧
    (need.quantity.isNone ∨ articleKey lowercase s.unit = articleKey lowercase (need.unit.getD []))

/-- What the lines hold together. -/
def total (lines : List (StockLine U)) : ℚ := lines.foldl (fun sum s => noise (sum + s.quantity)) 0

/-- What the stock lacks of one need. -/
def lacking (stock : List (StockLine U)) (need : PlannedLine R) : Option (PlannedLine R) :=
  match need.quantity with
  | none => if linesFor lowercase need stock = [] then some need else none
  | some wanted =>
    let short := noise (wanted - total noise (linesFor lowercase need stock))
    if 0 < short then some { need with quantity := some short } else none

/-- What the stock lacks of each need. -/
def missing (needs : List (PlannedLine R)) (stock : List (StockLine U)) : List (PlannedLine R) :=
  needs.filterMap (lacking lowercase noise stock)

end Home.Recipes
