import ManageOurHome.Lib.ReadCommitted
import ManageOurHome.Recipes.Outcome
import ManageOurHome.Stocks.Items
import ManageOurHome.Stocks.Reception

/-! @src apps/api/src/stocks (items.rs, reception.rs), apps/api/src/recipes/outcome.rs | layer:model |
    family:stocks

    The requests that write the stock of a family, one transaction each. A change and a dish hold the
    lines they write from before they read them; a reception holds its grocery items, reads the stock as
    it is, and leaves the additions to the database.

        create   INSERT ─▶ commit
        update   line FOR UPDATE ─▶ UPDATE ─▶ commit
        receive  groceries FOR UPDATE ─▶ stock ─▶ UPDATE + / INSERT … ─▶ DELETE groceries ─▶ commit
        done     selection FOR UPDATE ─▶ [recipe FOR UPDATE] ─▶ ingredients ─▶ lines FOR UPDATE
                   ─▶ UPDATE … ─▶ meal ─▶ [ingredients] ─▶ selection ─▶ commit

    `M` is the type of user ids, `U` of all the others, a date its day number. -/

namespace Home.Stocks

open FiniteMap ReadCommitted
open Home.Groups (Role)
open Home.Recipes (Removal OtherRemoval RecipeUpdate NewIngredient Used removalsToApply checkOthers
  checkRecipeUpdates namesAnIngredient ingredientsToAdd remainingAfter)

variable {M U : Type*}

/-! ### Rows -/

structure Grocery where
  name : Text
  quantity : Option F64
  unit : Option Text
  deriving DecidableEq

inductive Status where
  | planned | done | abandoned
  deriving DecidableEq, Repr

structure Selection (U : Type*) where
  recipe : U
  status : Status
  servings : Option ℤ
  deriving DecidableEq

structure Recipe (M : Type*) where
  createdBy : M
  servings : Option ℤ
  deriving DecidableEq

structure Ingredient (U : Type*) where
  recipe : U
  name : Text
  quantity : Option ℚ
  unit : Option Text
  isOptional : Bool
  deriving DecidableEq

structure Meal (M U : Type*) where
  recipe : U
  eatenOn : ℤ
  createdBy : M
  deriving DecidableEq

/-- The rows of `group_members`, `stock_items`, `grocery_items`, `recipe_selections`, `recipes`,
    `recipe_ingredients` and `meal_history`. -/
inductive Key (M U : Type*) where
  | member (u : M)
  | stock (id : U)
  | grocery (id : U)
  | selection (id : U)
  | recipe (id : U)
  | ingredient (id : U)
  | meal (id : U)
  deriving DecidableEq

inductive Row (M U : Type*) where
  | member (role : Role)
  | stock (i : StockItem M)
  | grocery (g : Grocery)
  | selection (s : Selection U)
  | recipe (r : Recipe M)
  | ingredient (i : Ingredient U)
  | meal (m : Meal M U)
  deriving DecidableEq

abbrev Rows (M U : Type*) := FMap (Key M U) (Row M U)

/-- What the database draws and orders for a request: the ids of the rows inserted, and the rows a query
    answers. -/
structure Draws (U : Type*) where
  ids : ℕ → U
  order : Listing U

section

variable [DecidableEq M] [DecidableEq U]

/-- The ids of some rows. -/
def idsOf (id : Key M U → Option U) (rows : Rows M U) : Finset U :=
  rows.keys.biUnion fun k => (id k).toFinset

/-- The stock lines. -/
def stockItems (order : Listing U) (rows : Rows M U) : List (U × StockItem M) :=
  (order.list (idsOf (fun | .stock id => some id | _ => none) rows)).filterMap fun id =>
    match rows.get (.stock id) with
    | some (.stock i) => some (id, i)
    | _ => none

/-- The stock lines of `ids`. -/
def stockOf (order : Listing U) (ids : List U) (rows : Rows M U) : List (U × StockItem M) :=
  (order.list ids.toFinset).filterMap fun id =>
    match rows.get (.stock id) with
    | some (.stock i) => some (id, i)
    | _ => none

/-- The grocery items of `ids`. -/
def groceriesOf (order : Listing U) (ids : List U) (rows : Rows M U) : List (GroceryLine U) :=
  (order.list ids.toFinset).filterMap fun id =>
    match rows.get (.grocery id) with
    | some (.grocery g) => some ⟨id, g.name, g.quantity, g.unit⟩
    | _ => none

/-- The ingredients of a recipe. -/
def ingredientsOf (order : Listing U) (recipe : U) (rows : Rows M U) : List (U × Ingredient U) :=
  (order.list (idsOf (fun | .ingredient id => some id | _ => none) rows)).filterMap fun id =>
    match rows.get (.ingredient id) with
    | some (.ingredient i) => if i.recipe = recipe then some (id, i) else none
    | _ => none

/-- The planned selection of a recipe. -/
def plannedSelection (order : Listing U) (recipe : U) (rows : Rows M U) : Option (U × Selection U) :=
  ((order.list (idsOf (fun | .selection id => some id | _ => none) rows)).filterMap fun id =>
    match rows.get (.selection id) with
    | some (.selection s) => if s.recipe = recipe ∧ s.status = .planned then some (id, s) else none
    | _ => none).head?

/-- Whether an article has the code, which the unique index refuses twice. -/
def barcodeTaken (code : Text) (rows : Rows M U) : Bool :=
  (rows.filter fun _ row => match row with
    | .stock i => i.barcode = some code
    | _ => false).size ≠ 0

end

/-! ### Requests -/

/-- `POST …/selection/done` body. -/
structure DoneRequest (U : Type*) where
  removals : List (Removal U)
  eatenOn : Option ℤ
  others : List (OtherRemoval U)
  addToRecipe : Bool
  recipeUpdates : List (RecipeUpdate U)

inductive Request (M U : Type*) where
  | create (actor : M) (body : CreateStockItemRequest)
  | update (actor : M) (id : U) (body : UpdateStockItemRequest)
  | receive (actor : M) (items : List (ReceivedItem U))
  | done (actor : M) (recipe : U) (body : DoneRequest U)

/-- Why a request is refused. -/
inductive Refusal (U : Type*) where
  | app (e : AppError)
  | stock_item_gone (id : U)
  | insufficient_stock (id : U) (available : ℚ)

/-- A lot planned: its items as sent and as found, and as they enter the stock. -/
structure Lot (M U : Type*) where
  actor : M
  draws : Draws U
  items : List (ReceivedItem U)
  groceries : List (GroceryLine U)
  articles : List (Article U)
  targets : List (Target U)

def Lot.ids (lot : Lot M U) : List U := lot.items.map ReceivedItem.groceryItemId

/-- A dish to mark done, its request checked. -/
structure Dish (M U : Type*) where
  actor : M
  draws : Draws U
  recipe : U
  role : Role
  body : DoneRequest U
  removals : List (U × ℚ)
  others : List (U × ℚ)

/-- What a dish takes from the stock. -/
def Dish.taken (d : Dish M U) : List (U × ℚ) := d.removals ++ d.others

/-- The selection closed, the two numbers of people, and whether the recipe may be changed. -/
structure Selected (U : Type*) where
  id : U
  servings : Option ℤ
  recipeServings : Option ℤ
  mayChange : Bool

/-- A line to take from: how much, and what it keeps. -/
structure Settled (U : Type*) where
  id : U
  quantity : ℚ
  left : ℚ

/-- What a request that ends well has done. -/
inductive Answer (M U : Type*) where
  | created (id : U) (item : StockItem M)
  | updated (id : U) (body : UpdateStockItemRequest) (item : StockItem M)
  | received (lot : Lot M U) (landed : List U)
  | cooked (d : Dish M U)

/-- Where a request is. -/
inductive Pc (M U : Type*) where
  | opened (r : Request M U) (draws : Draws U)
  | coding (code : Text) (id : U) (item : StockItem M)
  | inserting (id : U) (item : StockItem M)
  | reading (actor : M) (role : Role) (id : U) (body : UpdateStockItemRequest)
  | writing (id : U) (body : UpdateStockItemRequest) (item : StockItem M)
  | holding (actor : M) (draws : Draws U) (items : List (ReceivedItem U))
  | planning (actor : M) (draws : Draws U) (items : List (ReceivedItem U))
      (groceries : List (GroceryLine U))
  | landing (lot : Lot M U) (landed : List U) (a : Article U) (target : Target U)
      (rest : List (Article U × Target U))
  | probing (id : U)
  | clearing (lot : Lot M U) (landed : List U)
  | selecting (d : Dish M U)
  | holdingRecipe (d : Dish M U) (sel : Selected U)
  | listing (d : Dish M U) (sel : Selected U)
  | reserving (d : Dish M U) (sel : Selected U) (names : List Text)
  | taking (d : Dish M U) (sel : Selected U) (toAdd : List NewIngredient) (line : Settled U)
      (rest : List (Settled U))
  | dating (d : Dish M U) (sel : Selected U) (toAdd : List NewIngredient)
  | logging (d : Dish M U) (sel : Selected U) (toAdd : List NewIngredient) (eatenOn : ℤ)
  | adding (d : Dish M U) (sel : Selected U) (added : ℕ) (ing : NewIngredient)
      (rest : List NewIngredient)
  | changing (d : Dish M U) (sel : Selected U) (added : ℕ) (update : RecipeUpdate U)
      (rest : List (RecipeUpdate U))
  | stamping (d : Dish M U) (sel : Selected U)
  | closing (d : Dish M U) (sel : Selected U)
  | refused (r : Refusal U)
  | failed
  | finished (a : Answer M U)

/-- On to the next article, or to the deletion of the grocery items. -/
def Lot.next (lot : Lot M U) (landed : List U) : List (Article U × Target U) → Pc M U
  | [] => .clearing lot landed
  | (a, target) :: rest => .landing lot landed a target rest

/-- On to the next line, or to the meal. -/
def Dish.take (d : Dish M U) (sel : Selected U) (toAdd : List NewIngredient) : List (Settled U) → Pc M U
  | [] => .dating d sel toAdd
  | line :: rest => .taking d sel toAdd line rest

/-- On to the end: the recipe's row is written when an ingredient was. -/
def Dish.stamp (d : Dish M U) (sel : Selected U) (added : ℕ) : Pc M U :=
  if added ≠ 0 ∨ d.body.recipeUpdates ≠ [] then .stamping d sel else .closing d sel

/-- On to the next change to the recipe. -/
def Dish.change (d : Dish M U) (sel : Selected U) (added : ℕ) : List (RecipeUpdate U) → Pc M U
  | [] => d.stamp sel added
  | update :: rest => .changing d sel added update rest

/-- On to the next ingredient to add. -/
def Dish.add (d : Dish M U) (sel : Selected U) (added : ℕ) : List NewIngredient → Pc M U
  | [] => d.change sel added d.body.recipeUpdates
  | ing :: rest => .adding d sel added ing rest

/-- The line an article merges into, of those landed on or of the stock. -/
def Target.mergeInto (landed : List U) : Target U → Option U
  | .New => none
  | .Stock id => some id
  | .Lot creator => landed[creator]?

/-- The line an article makes. -/
def Line.item (actor : M) (line : Line) : StockItem M :=
  ⟨actor, line.name, none, line.quantity, line.unit, none, line.expiresOn, none⟩

/-- What each line taken from keeps; the first that is gone or holds less is named. -/
def settle [DecidableEq U] (noise : ℚ → ℚ) (locked : List (U × StockItem M)) :
    List (U × ℚ) → Except (Refusal U) (List (Settled U))
  | [] => .ok []
  | (id, quantity) :: rest =>
    match locked.find? fun s => s.1 = id with
    | none => .error (.stock_item_gone id)
    | some (_, line) =>
      match remainingAfter noise line.quantity quantity with
      | none => .error (.insufficient_stock id (noise line.quantity))
      | some left => (settle noise locked rest).map (⟨id, quantity, left⟩ :: ·)

variable [DecidableEq M] [LinearOrder U] (lowercase : Text → Text) (noise : ℚ → ℚ) (parisDay : ℤ → ℤ)

/-- Where a request goes from the role read, or from why it is not. What needs the body alone is checked
    before. -/
def Request.begin (draws : Draws U) (role : Except AppError Role) : Request M U → Pc M U
  | .create actor body =>
    match body.item actor, role with
    | .ok item, .ok _ =>
      match item.barcode with
      | some code => .coding code (draws.ids 0) item
      | none => .inserting (draws.ids 0) item
    | .error e, _ | _, .error e => .refused (.app e)
  | .update actor id body =>
    match role with
    | .ok role => .reading actor role id body
    | .error e => .refused (.app e)
  | .receive actor items =>
    match checkLot (items.map ReceivedItem.groceryItemId), role with
    | .ok (), .ok _ => .holding actor draws items
    | .error e, _ | _, .error e => .refused (.app e)
  | .done actor recipe body =>
    match removalsToApply body.removals, checkOthers body.removals body.others,
        checkRecipeUpdates body.recipeUpdates, role with
    | .ok removals, .ok others, .ok (), .ok role =>
      .selecting ⟨actor, draws, recipe, role, body, removals, others⟩
    | .error e, _, _, _ | _, .error e, _, _ | _, _, .error e, _ | _, _, _, .error e => .refused (.app e)

def Request.actor : Request M U → M
  | .create actor _ | .update actor _ _ | .receive actor _ | .done actor _ _ => actor

/-- A dish, its selection found and held. -/
def Dish.select (d : Dish M U) (rows : Rows M U) : Pc M U :=
  match plannedSelection d.draws.order d.recipe rows with
  | none => .refused (.app .NotFound)
  | some (id, s) =>
    match rows.get (.recipe d.recipe) with
    | some (.recipe r) =>
      let mayChange := canModify d.role (r.createdBy = d.actor)
      let sel : Selected U := ⟨id, s.servings, r.servings, mayChange⟩
      if d.body.recipeUpdates ≠ [] ∧ !mayChange then .refused (.app .Forbidden)
      else if (d.body.addToRecipe ∧ d.others ≠ [] ∧ mayChange) ∨ d.body.recipeUpdates ≠ [] then
        .holdingRecipe d sel
      else .listing d sel
    | _ => .refused (.app .NotFound)

/-- A dish, the lines it takes from held. -/
def Dish.reserve (d : Dish M U) (sel : Selected U) (names : List Text) (rows : Rows M U) : Pc M U :=
  let locked := stockOf d.draws.order (d.taken.map Prod.fst) rows
  if d.others.any fun o => locked.all fun s => s.1 ≠ o.1 then .refused (.app .NotFound)
  else
    let used : List Used := d.others.filterMap fun o =>
      (locked.find? fun s => s.1 = o.1).map fun s => ⟨s.2.name, s.2.unit, o.2⟩
    if d.removals.any fun r => (locked.find? fun s => s.1 = r.1).any fun s =>
        !namesAnIngredient lowercase s.2.name names then
      .refused (.app (.BadRequest "stock_item_not_in_recipe"))
    else
      let toAdd := if d.body.addToRecipe ∧ d.others ≠ [] then
          ingredientsToAdd lowercase noise used names sel.servings sel.recipeServings
        else []
      if toAdd ≠ [] ∧ !sel.mayChange then .refused (.app .Forbidden)
      else match settle noise locked d.taken with
      | .error r => .refused r
      | .ok remaining => d.take sel toAdd remaining

/-- The requests, statement by statement. -/
def code : Pc M U → Stmt (Key M U) (Row M U) Text (Answer M U) (Pc M U)
  | .opened r draws => .query fun rows =>
      r.begin draws (match rows.get (.member r.actor) with
        | some (.member role) => .ok role
        | _ => .error .Forbidden)
  -- `create_stock_item`: the entry of the unique index is waited for
  | .coding code id item => .lock code (.inserting id item)
  | .inserting id item => .write
      (fun rows => if item.barcode.any (barcodeTaken · rows) then FMap.empty
        else FMap.insertAt (.stock id) (.stock item) rows)
      fun rows =>
        if item.barcode.any (barcodeTaken · rows) then
          .refused (.app (.Conflict "barcode_already_in_stock"))
        else if (rows.get (.stock id)).isSome then .failed
        else .finished (.created id item)
  -- `update_stock_item`
  | .reading actor role id body => .write (FMap.touch fun k _ => k = .stock id) fun rows =>
      match rows.get (.stock id) with
      | some (.stock existing) =>
        if body.touchesFullRecord ∧ !canModify role (existing.createdBy = actor) then
          .refused (.app .Forbidden)
        else match body.item existing with
        | .error e => .refused (.app e)
        | .ok item => .writing id body item
      | _ => .refused (.app .NotFound)
  | .writing id body item => .write (FMap.updateAt (.stock id) (.stock item)) fun rows =>
      if (rows.get (.stock id)).isSome then .finished (.updated id body item) else .failed
  -- `receive`
  | .holding actor draws items => .write
      (FMap.touch fun k _ => match k with
        | .grocery g => g ∈ items.map ReceivedItem.groceryItemId
        | _ => false)
      fun rows =>
        let groceries := groceriesOf draws.order (items.map ReceivedItem.groceryItemId) rows
        if groceries.length ≠ items.length then .refused (.app .NotFound)
        else .planning actor draws items groceries
  | .planning actor draws items groceries => .query fun rows =>
      match planLot lowercase groceries ((stockItems draws.order rows).map fun s =>
          ⟨s.1, s.2.name, s.2.unit, s.2.expiresOn⟩) items with
      | .error e => .refused (.app e)
      | .ok (articles, targets) =>
        Lot.next ⟨actor, draws, items, groceries, articles, targets⟩ [] (articles.zip targets)
  | .landing lot landed a target rest =>
      match target, target.mergeInto landed with
      | .New, _ =>
        let id := lot.draws.ids landed.length
        .write (FMap.insertAt (.stock id) (.stock (a.line.item lot.actor))) fun rows =>
          if (rows.get (.stock id)).isSome then .failed else lot.next (landed ++ [id]) rest
      | _, some id => .write
          (FMap.updateWhere (fun k row => decide (k = .stock id) && match row with
              | .stock i => i.quantity ≤ MAX_QUANTITY - a.line.quantity
              | _ => false)
            fun
              | .stock i => .stock { i with quantity := i.quantity + a.line.quantity }
              | row => row)
          fun rows => match rows.get (.stock id) with
            | some (.stock i) =>
              if i.quantity ≤ MAX_QUANTITY - a.line.quantity then lot.next (landed ++ [id]) rest
              else .probing id
            | _ => .probing id
      -- an index out of the lot: a panic
      | _, none => .rollback
  | .probing id => .query fun rows =>
      if (rows.get (.stock id)).isSome then .refused (.app (.BadRequest "quantity_too_large"))
      else .refused (.app .NotFound)
  | .clearing lot landed => .write
      (FMap.deleteWhere fun k _ => match k with
        | .grocery g => g ∈ lot.ids
        | _ => false)
      fun _ => .finished (.received lot landed)
  -- `apply_done`
  | .selecting d => .write
      (FMap.touch fun k row => match k, row with
        | .selection _, .selection s => s.recipe = d.recipe ∧ s.status = .planned
        | _, _ => false)
      fun rows => d.select rows
  | .holdingRecipe d sel => .write (FMap.touch fun k _ => k = .recipe d.recipe) fun rows =>
      if (rows.get (.recipe d.recipe)).isSome then .listing d sel else .failed
  | .listing d sel => .query fun rows =>
      let ingredients := ingredientsOf d.draws.order d.recipe rows
      if d.body.recipeUpdates.any fun u => ingredients.all fun i => i.1 ≠ u.ingredientId then
        .refused (.app .NotFound)
      else .reserving d sel (ingredients.map fun i => i.2.name)
  | .reserving d sel names => .write
      (FMap.touch fun k _ => match k with
        | .stock id => id ∈ d.taken.map Prod.fst
        | _ => false)
      fun rows => d.reserve lowercase noise sel names rows
  | .taking d sel toAdd line rest => .write
      (FMap.updateWhere (fun k _ => k = .stock line.id) fun
        | .stock i => .stock { i with quantity := line.left }
        | row => row)
      fun rows => if (rows.get (.stock line.id)).isSome then d.take sel toAdd rest else .failed
  | .dating d sel toAdd => .clock fun now =>
      .logging d sel toAdd (d.body.eatenOn.getD (parisDay now))
  | .logging d sel toAdd eatenOn => .write
      (FMap.insertAt (.meal (d.draws.ids 0)) (.meal ⟨d.recipe, eatenOn, d.actor⟩))
      fun rows => if (rows.get (.meal (d.draws.ids 0))).isSome then .failed else d.add sel 0 toAdd
  | .adding d sel added ing rest => .write
      (FMap.insertAt (.ingredient (d.draws.ids (added + 1)))
        (.ingredient ⟨d.recipe, ing.name, some ing.quantity, some ing.unit, false⟩))
      fun rows =>
        if (rows.get (.ingredient (d.draws.ids (added + 1)))).isSome then .failed
        else d.add sel (added + 1) rest
  | .changing d sel added update rest => .write
      (match update.change with
        | .SetQuantity quantity => FMap.updateWhere (fun k _ => k = .ingredient update.ingredientId) fun
          | .ingredient i => .ingredient { i with
              quantity := match quantity with
                | .finite q => some q
                | _ => i.quantity }
          | row => row
        | .Remove => FMap.deleteWhere fun k _ => k = .ingredient update.ingredientId
        | .MakeOptional => FMap.updateWhere (fun k _ => k = .ingredient update.ingredientId) fun
          | .ingredient i => .ingredient { i with isOptional := true }
          | row => row)
      fun _ => d.change sel added rest
  | .stamping d sel => .write (FMap.touch fun k _ => k = .recipe d.recipe) fun _ => .closing d sel
  | .closing d sel => .write
      (FMap.updateWhere (fun k _ => k = .selection sel.id) fun
        | .selection s => .selection { s with status := .done }
        | row => row)
      fun rows => if (rows.get (.selection sel.id)).isSome then .finished (.cooked d) else .failed
  | .refused _ => .rollback
  | .failed => .rollback
  | .finished a => .commit a

/-- Any request. -/
inductive Starts : Pc M U → Prop where
  | request (r : Request M U) (draws : Draws U) : Starts (.opened r draws)

end Home.Stocks
