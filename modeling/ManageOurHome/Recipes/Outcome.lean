import Mathlib.Data.List.Sort
import ManageOurHome.Error
import ManageOurHome.Grocery.Planned

/-! @src apps/api/src/recipes/outcome.rs | layer:model | family:recipes

    What marking a planned recipe done proposes to take from the stock, and how the request that applies
    it is checked: the pure part. Each ingredient is taken from the lines of its name and unit, what
    expires first first; the ingredients share what the lines hold, in order. `U` is the type of ids, a
    date its day number. -/

namespace Home.Recipes

open Home.Stocks (articleKey)

variable {U : Type*}

/-- A stock line an ingredient could be taken from. -/
structure StockLine (U : Type*) where
  id : U
  name : Text
  unit : Text
  quantity : ℚ
  expiresOn : Option ℤ
  deriving DecidableEq

/-- An ingredient, its quantity scaled to the selection's number of people. -/
structure Ingredient where
  name : Text
  quantity : Option ℚ
  unit : Option Text
  deriving DecidableEq

inductive RemovalWarning where
  | NoStock | UnitMismatch | NoQuantity | Capped
  deriving DecidableEq, Repr

structure Take (U : Type*) where
  stockItemId : U
  quantity : ℚ
  deriving DecidableEq

structure Proposal (U : Type*) where
  lots : List (Take U)
  quantity : ℚ
  warning : Option RemovalWarning
  deriving DecidableEq

/-- One line of a `done` request. -/
structure Removal (U : Type*) where
  stockItemId : U
  quantity : F64
  exclude : Bool
  deriving DecidableEq

/-- A product used that the recipe does not call for. -/
structure OtherRemoval (U : Type*) where
  stockItemId : U
  quantity : F64
  deriving DecidableEq

variable (lowercase : Text → Text) (noise : ℚ → ℚ)

/-- Dates compare as numbers do, computably. -/
local instance dateOrder : Preorder ℤ := Int.instLinearOrder.toPreorder

/-- What `match_stock` prefers: the unit, a line not empty, the earliest date, the smallest id. -/
def matchKey (unit : Text) (s : StockLine U) : Bool ×ₗ Bool ×ₗ Bool ×ₗ WithBot ℤ ×ₗ U :=
  toLex (decide (articleKey lowercase s.unit ≠ articleKey lowercase unit),
    toLex (decide (s.quantity ≤ 0), toLex (s.expiresOn.isNone, toLex (s.expiresOn, s.id))))

/-- The stock line an ingredient matches. -/
def matchStock [LinearOrder U] (name unit : Text) (stock : List (StockLine U)) : Option (StockLine U) :=
  (stock.filter fun s => articleKey lowercase s.name = articleKey lowercase name).argmin
    (matchKey lowercase unit)

/-- What can be taken of `wanted` from a line holding `available`. -/
def cap (wanted available : ℚ) : ℚ := max (min wanted available) 0

/-- What a line keeps once `removed` is taken. -/
def remainingAfter (available removed : ℚ) : Option ℚ :=
  let available := noise available
  if removed ≤ available then some (max (noise (available - removed)) 0) else none

/-- What `lots_in_order` sorts by. -/
def lotKey (s : StockLine U) : Bool ×ₗ WithBot ℤ ×ₗ U := toLex (s.expiresOn.isNone, toLex (s.expiresOn, s.id))

/-- The lines of a name and a unit, in the order they are taken from. -/
def lotsInOrder [LinearOrder U] (name unit : Text) (stock : List (StockLine U)) : List (StockLine U) :=
  (stock.filter fun s => articleKey lowercase s.name = articleKey lowercase name ∧
    articleKey lowercase s.unit = articleKey lowercase unit).insertionSort fun a b => lotKey a ≤ lotKey b

/-- The loop over the lots of one ingredient: what each line has left, what is still wanted, and what
    is taken. -/
structure Taking (U : Type*) where
  left : U → ℚ
  still : ℚ
  total : ℚ
  lots : List (Take U)

def Taking.over [DecidableEq U] : List (StockLine U) → Taking U → Taking U
  | [], t => t
  | lot :: lots, t =>
    if t.still ≤ 0 then t
    else
      let quantity := cap t.still (noise (t.left lot.id))
      if quantity ≤ 0 then Taking.over lots t
      else Taking.over lots
        { left := Function.update t.left lot.id ((remainingAfter noise (t.left lot.id) quantity).getD 0)
          still := noise (t.still - quantity)
          total := noise (t.total + quantity)
          lots := t.lots ++ [⟨lot.id, quantity⟩] }

/-- The proposal for one ingredient, and what the lines have left after it. -/
def proposeOne [LinearOrder U] (stock : List (StockLine U)) (left : U → ℚ) (ing : Ingredient) :
    Proposal U × (U → ℚ) :=
  let unit := Stocks.normalizeUnit (ing.unit.getD [])
  match matchStock lowercase ing.name unit stock with
  | none => (⟨[], 0, some .NoStock⟩, left)
  | some line =>
    if articleKey lowercase line.unit ≠ articleKey lowercase unit then
      (⟨[⟨line.id, 0⟩], 0, some .UnitMismatch⟩, left)
    else match ing.quantity with
    | none => (⟨[⟨line.id, 0⟩], 0, some .NoQuantity⟩, left)
    | some wanted =>
      let t := Taking.over noise (lotsInOrder lowercase ing.name unit stock) ⟨left, wanted, 0, []⟩
      (⟨if t.lots = [] then [⟨line.id, 0⟩] else t.lots, t.total,
        if t.total < wanted then some .Capped else none⟩, t.left)

/-- The proposals from what the lines have left, one ingredient after the other. -/
def proposeFrom [LinearOrder U] (stock : List (StockLine U)) : (U → ℚ) → List Ingredient → List (Proposal U)
  | _, [] => []
  | left, ing :: ings =>
    (proposeOne lowercase noise stock left ing).1 ::
      proposeFrom stock (proposeOne lowercase noise stock left ing).2 ings

/-- What each line holds. -/
def held [DecidableEq U] (stock : List (StockLine U)) (id : U) : ℚ :=
  ((stock.find? (·.id = id)).map StockLine.quantity).getD 0

/-- The proposal for each ingredient, in order. -/
def propose [LinearOrder U] (ingredients : List Ingredient) (stock : List (StockLine U)) :
    List (Proposal U) := proposeFrom lowercase noise stock (held stock) ingredients

/-! ### The request -/

/-- `removals_to_apply`'s loop, the lines of `seen` named before. -/
def removalsFrom [DecidableEq U] (seen : List U) : List (Removal U) → Except AppError (List (U × ℚ))
  | [] => .ok []
  | r :: rest =>
    if r.stockItemId ∈ seen then .error (.BadRequest "duplicate_stock_item")
    else match r.quantity with
    | .finite q =>
      if q < 0 then .error (.BadRequest "invalid_quantity")
      else (removalsFrom (r.stockItemId :: seen) rest).map fun pairs =>
        if !r.exclude ∧ 0 < q then (r.stockItemId, q) :: pairs else pairs
    | _ => .error (.BadRequest "invalid_quantity")

/-- The lines a `done` request takes from: those neither excluded nor at 0. -/
def removalsToApply [DecidableEq U] (removals : List (Removal U)) : Except AppError (List (U × ℚ)) :=
  removalsFrom [] removals

/-- `check_others`'s loop, the lines of `seen` named before. -/
def othersFrom [DecidableEq U] (seen : List U) : List (OtherRemoval U) → Except AppError (List (U × ℚ))
  | [] => .ok []
  | o :: rest =>
    if o.stockItemId ∈ seen then .error (.BadRequest "duplicate_stock_item")
    else match o.quantity with
    | .finite q =>
      if q ≤ 0 then .error (.BadRequest "invalid_quantity")
      else (othersFrom (o.stockItemId :: seen) rest).map fun pairs => (o.stockItemId, q) :: pairs
    | _ => .error (.BadRequest "invalid_quantity")

/-- The lines of a `done` request's other products, each once across both. -/
def checkOthers [DecidableEq U] (removals : List (Removal U)) (others : List (OtherRemoval U)) :
    Except AppError (List (U × ℚ)) := othersFrom (removals.map Removal.stockItemId) others

/-- Whether a stock line's name is one of the recipe's ingredients. -/
def namesAnIngredient (name : Text) (ingredients : List Text) : Bool :=
  ingredients.any fun i => articleKey lowercase i = articleKey lowercase name

/-- An other product as taken from the stock. -/
structure Used where
  name : Text
  unit : Text
  quantity : ℚ

structure NewIngredient where
  name : Text
  quantity : ℚ
  unit : Text

/-- A product used joins the ingredient of its name added before it, or makes one at the end. -/
def addUsed (u : Used) : List (Text × NewIngredient) → List (Text × NewIngredient)
  | [] => [(articleKey lowercase u.name, ⟨trim u.name, u.quantity, trim u.unit⟩)]
  | (key, ing) :: added =>
    if key = articleKey lowercase u.name then
      (if articleKey lowercase ing.unit = articleKey lowercase u.unit then
        (key, { ing with quantity := noise (ing.quantity + u.quantity) })
      else (key, ing)) :: added
    else (key, ing) :: addUsed u added

/-- The ingredients `add_to_recipe` adds, for the recipe's number of people. -/
def ingredientsToAdd (used : List Used) (existing : List Text) (cookedFor writtenFor : Option ℤ) :
    List NewIngredient :=
  let fresh := used.filter fun u => !namesAnIngredient lowercase u.name existing
  (fresh.foldl (fun added u => addUsed lowercase noise u added) []).map fun (_, ing) =>
    { ing with quantity :=
        (Grocery.scaleQuantity noise (some ing.quantity) cookedFor writtenFor).getD ing.quantity }

inductive RecipeChange where
  | SetQuantity (quantity : F64)
  | Remove
  | MakeOptional
  deriving DecidableEq

/-- One change to the recipe a `done` request carries. -/
structure RecipeUpdate (U : Type*) where
  ingredientId : U
  change : RecipeChange
  deriving DecidableEq

/-- `check_recipe_updates`'s loop, the ingredients of `seen` named before. -/
def updatesFrom [DecidableEq U] (seen : List U) : List (RecipeUpdate U) → Except AppError Unit
  | [] => .ok ()
  | u :: rest =>
    if u.ingredientId ∈ seen then .error (.BadRequest "duplicate_ingredient")
    else match u.change with
    | .SetQuantity (.finite q) =>
      if q ≤ 0 then .error (.BadRequest "invalid_quantity") else updatesFrom (u.ingredientId :: seen) rest
    | .SetQuantity _ => .error (.BadRequest "invalid_quantity")
    | .Remove | .MakeOptional => updatesFrom (u.ingredientId :: seen) rest

/-- Each ingredient once, and a new quantity above 0. -/
def checkRecipeUpdates [DecidableEq U] (updates : List (RecipeUpdate U)) : Except AppError Unit :=
  updatesFrom [] updates

end Home.Recipes
