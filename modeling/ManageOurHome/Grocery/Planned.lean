import Mathlib.Algebra.Order.Ring.Rat
import ManageOurHome.Lib.Grouped
import ManageOurHome.Stocks.Merge

/-! @src apps/api/src/grocery_list/planned.rs, apps/shared/src/validation/grocery_list.rs | layer:model |
    family:grocery list

    The lines the planned recipes call for: quantities brought to the number of people, ingredients of
    one name merged into the first. Quantities are rationals, and `noise` is `without_binary_noise`,
    the rounding after each operation. `R` is the type of recipe ids. -/

namespace Home.Grocery

open Home.Stocks (articleKey DEFAULT_UNIT)

variable {R : Type*}

/-- A quantity without a unit gets the default one. -/
def normalizeUnit (quantity : Option ℚ) (unit : Option Text) : Option Text :=
  match unit.map trim with
  | some u => if u ≠ [] then some u else quantity.map fun _ => DEFAULT_UNIT
  | none => quantity.map fun _ => DEFAULT_UNIT

/-- One required ingredient of a planned recipe, written for `recipeServings` people and cooked for
    `selectionServings`. -/
structure PlannedIngredient (R : Type*) where
  recipeId : R
  name : Text
  quantity : Option ℚ
  unit : Option Text
  recipeServings : Option ℤ
  selectionServings : Option ℤ
  deriving DecidableEq

/-- One grocery line to create, from the first planned recipe that calls for it. -/
structure PlannedLine (R : Type*) where
  recipeId : R
  name : Text
  quantity : Option ℚ
  unit : Option Text
  deriving DecidableEq

variable (lowercase : Text → Text) (noise : ℚ → ℚ)

/-- `quantity × target / base`; as written when one is missing. -/
def scaleQuantity (quantity : Option ℚ) (base target : Option ℤ) : Option ℚ :=
  match quantity, base, target with
  | some q, some b, some t => if 0 < b then some (noise (q * t / b)) else quantity
  | _, _, _ => quantity

def sameUnit : Option Text → Option Text → Bool
  | some a, some b => articleKey lowercase a = articleKey lowercase b
  | none, none => true
  | _, _ => false

/-- A further quantity of a line already there. -/
def PlannedLine.add (line : PlannedLine R) (quantity : Option ℚ) (unit : Option Text) : PlannedLine R :=
  match line.quantity, quantity with
  | some sum, some q =>
    if sameUnit lowercase line.unit unit then { line with quantity := some (noise (sum + q)) } else line
  | _, _ => line

/-- The quantity of an ingredient, for the people it is cooked for. -/
def PlannedIngredient.scaled (ing : PlannedIngredient R) : Option ℚ :=
  scaleQuantity noise ing.quantity ing.recipeServings ing.selectionServings

/-- The line an ingredient makes when it is the first of its name. -/
def PlannedIngredient.line (ing : PlannedIngredient R) : PlannedLine R :=
  ⟨ing.recipeId, trim ing.name, ing.scaled noise, normalizeUnit (ing.scaled noise) ing.unit⟩

/-- An ingredient joins the line of its name, or makes one at the end. -/
def planLine (ing : PlannedIngredient R) : List (Text × PlannedLine R) → List (Text × PlannedLine R)
  | [] => [(articleKey lowercase ing.name, ing.line noise)]
  | (key, line) :: lines =>
    if key = articleKey lowercase ing.name then
      (key, line.add lowercase noise (ing.scaled noise) (normalizeUnit (ing.scaled noise) ing.unit)) :: lines
    else (key, line) :: planLine ing lines

/-- The lines by the key of their name, as they are made. -/
def planned (ingredients : List (PlannedIngredient R)) : List (Text × PlannedLine R) :=
  ingredients.foldl (fun lines ing => planLine lowercase noise ing lines) []

/-- The lines, in the order of their first appearance. -/
def planLines (ingredients : List (PlannedIngredient R)) : List (PlannedLine R) :=
  (planned lowercase noise ingredients).map Prod.snd

/-- Further ingredients of its name added to a line. -/
def PlannedLine.addAll (line : PlannedLine R) (ings : List (PlannedIngredient R)) : PlannedLine R :=
  ings.foldl (fun line ing =>
    line.add lowercase noise (ing.scaled noise) (normalizeUnit (ing.scaled noise) ing.unit)) line

section

variable {lowercase : Text → Text} {noise : ℚ → ℚ} {ing : PlannedIngredient R}
  {ings : List (PlannedIngredient R)} {lines : List (Text × PlannedLine R)} {key : Text}
  {line : PlannedLine R}

/-- The grocery list groups the ingredients by name. -/
theorem planLine_eq : planLine lowercase noise ing lines =
    Grouped.into (fun ing : PlannedIngredient R => articleKey lowercase ing.name) (·.line noise)
      (fun line ing => line.addAll lowercase noise [ing]) ing lines := by
  induction lines with
  | nil => rfl
  | cons head lines ih => rw [planLine, ih, Grouped.into]; rfl

theorem planned_eq : planned lowercase noise ings =
    Grouped.groups (fun ing : PlannedIngredient R => articleKey lowercase ing.name) (·.line noise)
      (fun line ing => line.addAll lowercase noise [ing]) ings := by
  simp only [planned, planLine_eq, Grouped.groups]

/-- A line is the first ingredient of its name, with the others of that name added. -/
theorem mem_planned : (key, line) ∈ planned lowercase noise ings ↔
    ∃ first rest, ings.filter (fun ing => articleKey lowercase ing.name = key) = first :: rest ∧
      line = (first.line noise).addAll lowercase noise rest := by
  rw [planned_eq, Grouped.mem_groups]
  rfl

theorem PlannedLine.name_add {quantity : Option ℚ} {unit : Option Text} :
    (line.add lowercase noise quantity unit).name = line.name := by
  unfold add
  split
  · split <;> rfl
  · rfl

theorem PlannedLine.name_addAll : (line.addAll lowercase noise ings).name = line.name := by
  induction ings generalizing line with
  | nil => rfl
  | cons ing ings ih => rw [addAll, List.foldl_cons, ← addAll, ih, name_add]

/-- A line's name is trimmed. -/
theorem trim_of_mem_planLines (h : line ∈ planLines lowercase noise ings) :
    trim line.name = line.name := by
  obtain ⟨⟨key, line⟩, hmem, rfl⟩ := List.mem_map.mp h
  obtain ⟨first, rest, _, rfl⟩ := mem_planned.mp hmem
  rw [PlannedLine.name_addAll, PlannedIngredient.line, trim_trim]

end

end Home.Grocery
