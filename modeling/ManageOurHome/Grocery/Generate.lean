import ManageOurHome.Lib.ReadCommitted
import ManageOurHome.Recipes.Availability

/-! @src apps/api/src/grocery_list/items.rs, apps/api/src/recipes/availability.rs | layer:model |
    family:grocery list

    The two requests that fill the grocery list of a family, one transaction each, on a stock and a plan
    that do not change. The articles on the list are read once; each line not among them, nor inserted
    before it, is inserted by a statement of its own, and nothing holds the list meanwhile.

        generate     stock ─▶ planned ─▶ low stock ─▶ list ─▶ INSERT … ─▶ commit
        add missing  selection ─▶ what it lacks    ─▶ list ─▶ INSERT … ─▶ commit

    `M`, `G`, `R` and `U` are the types of user, item, recipe and stock line ids. -/

namespace Home.Grocery

open FiniteMap ReadCommitted
open Home.Stocks (articleKey)
open Home.Recipes (RecipeIngredient StockLine needs missing)

variable {M G R U : Type*}

/-! ### The stock and the plan -/

structure StockRow (U : Type*) where
  id : U
  name : Text
  unit : Text
  quantity : ℚ
  reorderThreshold : Option ℚ
  expiresOn : Option ℤ
  deriving DecidableEq

/-- A planned selection and its recipe's ingredients, by name. -/
structure Selection (R : Type*) where
  recipe : R
  recipeServings : Option ℤ
  servings : Option ℤ
  ingredients : List RecipeIngredient
  deriving DecidableEq

/-- The rows of `stock_items`, and the planned selections in the order they were made. -/
structure Kitchen (U R : Type*) where
  stock : List (StockRow U)
  planned : List (Selection R)

inductive Source where
  | manual | recipe | low_stock
  deriving DecidableEq, Repr

/-- A line about to be inserted, under the key it is compared with the list on. -/
structure NewItem (R : Type*) where
  key : Text
  name : Text
  quantity : Option ℚ
  unit : Option Text
  source : Source
  sourceRecipe : Option R
  deriving DecidableEq

/-- Which of the two requests: what they differ by, their member apart. -/
inductive Goal (R : Type*) where
  | generate
  | missing (recipe : R)
  deriving DecidableEq

variable (lowercase : Text → Text) (noise : ℚ → ℚ)

/-- The articles the stock holds some of. -/
def Kitchen.stockNames (k : Kitchen U R) : List Text :=
  (k.stock.filter fun s => 0 < s.quantity).map fun s => articleKey lowercase s.name

/-- The required ingredients of the planned recipes. -/
def Kitchen.plannedIngredients (k : Kitchen U R) : List (PlannedIngredient R) :=
  k.planned.flatMap fun s => (s.ingredients.filter fun i => !i.isOptional).map fun i =>
    ⟨s.recipe, i.name, i.quantity, i.unit, s.recipeServings, s.servings⟩

/-- The lines of the planned recipes, without the articles in `stockNames`. -/
def Kitchen.missingLines (k : Kitchen U R) (stockNames : List Text) : List (PlannedLine R) :=
  planLines lowercase noise
    (k.plannedIngredients.filter fun i => articleKey lowercase i.name ∉ stockNames)

/-- The stock lines at or below their threshold. -/
def Kitchen.lowStockItems (k : Kitchen U R) : List Text :=
  (k.stock.filter fun s => s.reorderThreshold.any (s.quantity ≤ ·)).map StockRow.name

/-- What the planned selection of a recipe lacks (`planned_availability`). -/
def Kitchen.availability [DecidableEq R] (k : Kitchen U R) (recipe : R) : List (PlannedLine R) :=
  (k.planned.filter fun s => s.recipe = recipe).flatMap fun s =>
    missing lowercase noise (needs lowercase noise s.recipe s.ingredients s.recipeServings s.servings)
      (k.stock.map fun l => (⟨l.id, l.name, l.unit, l.quantity, l.expiresOn⟩ : StockLine U))

/-- A line of `generate` from the planned recipes. -/
def recipeItem (line : PlannedLine R) : NewItem R :=
  ⟨lowercase line.name, line.name, line.quantity, line.unit, .recipe, some line.recipeId⟩

/-- A line of `generate` from the stock. -/
def lowStockItem (name : Text) : NewItem R :=
  ⟨lowercase (trim name), trim name, none, none, .low_stock, none⟩

/-- A line of `add_missing`. -/
def missingItem (line : PlannedLine R) : NewItem R :=
  ⟨lowercase (trim line.name), line.name, line.quantity, line.unit, .recipe, some line.recipeId⟩

/-- The lines of a request, in the order it goes through them. -/
def Kitchen.items [DecidableEq R] (k : Kitchen U R) : Goal R → List (NewItem R)
  | .generate => (k.missingLines lowercase noise (k.stockNames lowercase)).map (recipeItem lowercase) ++
      k.lowStockItems.map (lowStockItem lowercase)
  | .missing recipe => (k.availability lowercase noise recipe).map (missingItem lowercase)

/-! ### The list -/

structure GroceryItem (M R : Type*) where
  createdBy : M
  name : Text
  quantity : Option ℚ
  unit : Option Text
  checked : Bool
  source : Source
  sourceRecipe : Option R
  deriving DecidableEq

/-- The rows of `group_members` and `grocery_items`. -/
inductive Key (M G : Type*) where
  | member (u : M)
  | item (g : G)
  deriving DecidableEq

inductive Row (M R : Type*) where
  | member
  | item (i : GroceryItem M R)
  deriving DecidableEq

abbrev Rows (M G R : Type*) := FMap (Key M G) (Row M R)

/-- The article of an unchecked item. -/
def Row.article : Row M R → Option Text
  | .item i => if i.checked then none else some (articleKey lowercase i.name)
  | .member => none

/-- The articles on the list, unchecked. -/
def articles (rows : Rows M G R) : Finset Text :=
  rows.keys.biUnion fun k => match k with
    | .item g => ((rows.get (.item g)).bind (Row.article lowercase)).toFinset
    | .member _ => ∅

def NewItem.row (actor : M) (i : NewItem R) : Row M R :=
  .item ⟨actor, i.name, i.quantity, i.unit, false, i.source, i.sourceRecipe⟩

/-- Where a request is; `ids` are the ids `gen_random_uuid` will draw. -/
inductive Pc (M G R : Type*) where
  | opened (actor : M) (goal : Goal R) (ids : ℕ → G)
  | stocking (actor : M) (ids : ℕ → G)
  | planning (actor : M) (ids : ℕ → G) (stockNames : List Text)
  | lowering (actor : M) (ids : ℕ → G) (lines : List (PlannedLine R))
  | selecting (actor : M) (ids : ℕ → G) (recipe : R)
  | weighing (actor : M) (ids : ℕ → G) (recipe : R)
  | listing (actor : M) (ids : ℕ → G) (goal : Goal R) (items : List (NewItem R))
  | inserting (actor : M) (ids : ℕ → G) (goal : Goal R) (seen : Finset Text)
      (created : List (G × NewItem R)) (item : NewItem R) (items : List (NewItem R))
  | refused (e : AppError)
  | failed
  | done (goal : Goal R) (created : List (G × NewItem R))

/-- On to the first item whose key was not seen, or to the end. -/
def nextInsert (actor : M) (ids : ℕ → G) (goal : Goal R) (seen : Finset Text)
    (created : List (G × NewItem R)) : List (NewItem R) → Pc M G R
  | [] => .done goal created
  | item :: items =>
    if item.key ∈ seen then nextInsert actor ids goal seen created items
    else .inserting actor ids goal seen created item items

variable [DecidableEq M] [DecidableEq G] [DecidableEq R] (k : Kitchen U R)

/-- The requests, statement by statement. A commit is remembered by the items it answered. -/
def code : Pc M G R → Stmt (Key M G) (Row M R) Empty (Goal R × List (G × NewItem R)) (Pc M G R)
  | .opened actor goal ids => .query fun rows =>
      if (rows.get (.member actor)).isSome then
        match goal with
        | .generate => .stocking actor ids
        | .missing recipe => .selecting actor ids recipe
      else .refused .Forbidden
  | .stocking actor ids => .query fun _ => .planning actor ids (k.stockNames lowercase)
  | .planning actor ids stockNames => .query fun _ =>
      .lowering actor ids (k.missingLines lowercase noise stockNames)
  | .lowering actor ids lines => .query fun _ =>
      .listing actor ids .generate
        (lines.map (recipeItem lowercase) ++ k.lowStockItems.map (lowStockItem lowercase))
  | .selecting actor ids recipe => .query fun _ =>
      if k.planned.any (·.recipe = recipe) then .weighing actor ids recipe else .refused .NotFound
  | .weighing actor ids recipe => .query fun _ =>
      .listing actor ids (.missing recipe)
        ((k.availability lowercase noise recipe).map (missingItem lowercase))
  | .listing actor ids goal items => .query fun rows =>
      nextInsert actor ids goal (articles lowercase rows) [] items
  | .inserting actor ids goal seen created item items =>
      let g := ids created.length
      .write (FMap.insertAt (.item g) (item.row actor)) fun rows =>
        if (rows.get (.item g)).isSome then .failed
        else nextInsert actor ids goal (insert item.key seen) (created ++ [(g, item)]) items
  | .refused _ => .rollback
  | .failed => .rollback
  | .done goal created => .commit (goal, created)

/-- Any request of a member. -/
inductive Starts : Pc M G R → Prop where
  | request (actor : M) (goal : Goal R) (ids : ℕ → G) : Starts (.opened actor goal ids)

section

variable {lowercase noise k}

omit [DecidableEq M] [DecidableEq G] [DecidableEq R] in
theorem mem_articles {rows : Rows M G R} {key : Text} : key ∈ articles lowercase rows ↔
    ∃ g i, rows.get (.item g) = some (.item i) ∧ i.checked = false ∧
      articleKey lowercase i.name = key := by
  rw [articles, Finset.mem_biUnion]
  constructor
  · rintro ⟨k, _, hk⟩
    cases k with
    | member u => exact absurd hk (Finset.notMem_empty key)
    | item g =>
      simp only [Option.mem_toFinset, Option.mem_def, Option.bind_eq_some_iff] at hk
      obtain ⟨row, hrow, hkey⟩ := hk
      cases row with
      | member => exact absurd hkey (by simp [Row.article])
      | item i =>
        rcases hchecked : i.checked with _ | _
        · exact ⟨g, i, hrow, hchecked, by simpa [Row.article, hchecked] using hkey⟩
        · exact absurd hkey (by simp [Row.article, hchecked])
  · rintro ⟨g, i, hrow, hchecked, hkey⟩
    refine ⟨.item g, FMap.mem_keys_of_get hrow, ?_⟩
    simp [hrow, Row.article, hchecked, hkey]

end

end Home.Grocery
