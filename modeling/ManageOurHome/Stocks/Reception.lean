import ManageOurHome.Error
import ManageOurHome.Stocks.Merge

/-! @src apps/api/src/stocks/reception.rs | layer:model | family:stocks

    Receiving a lot of groceries into the stock. Each article goes to a line: one of its own, an existing
    one, or the one an earlier article of the lot creates. `plan` takes the articles in order, and the
    new lines become candidates as it goes; the proposal (`GET`) plans the lot with no modes, and the
    application (`POST`) with those sent back.

        articles   lait   lait   pain
        targets    New    Lot 0  Stock 17 -/

namespace Home.Stocks

variable {U : Type*}

/-- One received article, as sent. -/
structure ReceivedItem (U : Type*) where
  groceryItemId : U
  name : Option Text
  quantity : Option F64
  unit : Option Text
  expiresOn : Option ℤ
  mode : Option ReceptionMode

/-- The grocery-item fields a received article falls back on. -/
structure GroceryLine (U : Type*) where
  id : U
  name : Text
  quantity : Option F64
  unit : Option Text

/-- An article as it enters the stock. -/
structure Line where
  name : Text
  quantity : ℚ
  unit : Text
  expiresOn : Option ℤ

/-- An article of a lot: the grocery item, its line and its mode. -/
structure Article (U : Type*) where
  groceryItemId : U
  line : Line
  mode : Option ReceptionMode

/-- The lot must name at least one item, and each item once. -/
def checkLot [DecidableEq U] (ids : List U) : Except AppError Unit :=
  if ids = [] then .error (.BadRequest "items_required")
  else if ¬ids.Nodup then .error (.BadRequest "duplicate_grocery_item")
  else .ok ()

/-- Applies the grocery item's values to the fields the article leaves out. -/
def receivedLine (item : ReceivedItem U) (grocery : GroceryLine U) : Except AppError Line :=
  let name := trim (item.name.getD grocery.name)
  if name = [] then .error (.BadRequest "name_required")
  else match (item.quantity.or grocery.quantity).getD (.finite 1) with
  | .finite quantity =>
    if MAX_QUANTITY < quantity then .error (.BadRequest "quantity_too_large")
    else if quantity ≤ 0 then .error (.BadRequest "quantity_must_be_positive")
    else
      let unit := (item.unit.or grocery.unit).getD []
      .ok ⟨name, quantity, normalizeUnit unit, item.expiresOn⟩
  | _ => .error (.BadRequest "quantity_too_large")

/-- The stock line the article goes to, or none for a line of its own. -/
def resolveTarget (mode : Option ReceptionMode) (proposal : Option U) :
    Except AppError (Option U) :=
  match mode with
  | none => .ok proposal
  | some .New => .ok none
  | some .Merge =>
    match proposal with
    | some id => .ok (some id)
    | none => .error (.Conflict "no_stock_to_merge")

/-- Where an article of a lot goes. -/
inductive Target (U : Type*) where
  | New
  | Stock (id : U)
  /-- The line an earlier article of the same lot creates, its index in the lot. -/
  | Lot (creator : ℕ)
  deriving DecidableEq

def Target.mode : Target U → ReceptionMode
  | .New => .New
  | .Stock _ | .Lot _ => .Merge

/-- An article that makes a new line, as a candidate for the articles after it. -/
def Article.candidate (a : Article U) : StockCandidate U :=
  ⟨a.groceryItemId, a.line.name, a.line.unit, a.line.expiresOn⟩

variable [LinearOrder U] (lowercase : Text → Text)

/-- The line an article merges into, by its id as a candidate: one the lot creates, or the stock's. -/
def landing (created : List (U × ℕ)) (id : U) : Target U :=
  match created.find? fun c => c.1 = id with
  | some (_, creator) => .Lot creator
  | none => .Stock id

/-- `plan`'s loop, from the article at `index` on: the candidates so far, and the ids the new lines are
    candidates under with the index of the article that creates each. -/
def planFrom (index : ℕ) (candidates : List (StockCandidate U)) (created : List (U × ℕ)) :
    List (Article U) → Except AppError (List (Target U))
  | [] => .ok []
  | a :: articles => do
    let proposal := mergeTarget lowercase a.line.name a.line.unit a.line.expiresOn candidates
    match ← resolveTarget a.mode proposal with
    | some id => return landing created id :: (← planFrom (index + 1) candidates created articles)
    | none =>
      return .New :: (← planFrom (index + 1) (candidates ++ [a.candidate])
        (created ++ [(a.groceryItemId, index)]) articles)

/-- Plans a lot, article by article in its order. -/
def plan (articles : List (Article U)) (stock : List (StockCandidate U)) :
    Except AppError (List (Target U)) := planFrom lowercase 0 stock [] articles

/-- A received article, its grocery item found. -/
def receivedArticle (groceries : List (GroceryLine U)) (item : ReceivedItem U) :
    Except AppError (Article U) :=
  match groceries.find? fun g => g.id = item.groceryItemId with
  | none => .error .NotFound
  | some grocery => (receivedLine item grocery).map fun line => ⟨item.groceryItemId, line, item.mode⟩

/-- What `POST` makes of a lot, once its grocery items are read: the articles as they enter the stock,
    and where each goes. -/
def planLot (groceries : List (GroceryLine U)) (stock : List (StockCandidate U))
    (items : List (ReceivedItem U)) : Except AppError (List (Article U) × List (Target U)) := do
  let articles ← items.mapM (receivedArticle groceries)
  let targets ← plan lowercase articles stock
  return (articles, targets)

/-- The articles `GET` plans: the checked items with their own values, those that cannot be
    pre-filled left out. -/
def proposedArticles (checked : List (GroceryLine U)) : List (Article U) :=
  checked.filterMap fun grocery =>
    match receivedLine ⟨grocery.id, none, none, none, none, none⟩ grocery with
    | .ok line => some ⟨grocery.id, line, none⟩
    | .error _ => none

/-! ### One article at a time -/

variable {lowercase} {index : ℕ} {candidates : List (StockCandidate U)} {created : List (U × ℕ)}
  {a : Article U} {articles : List (Article U)}

/-- What `plan` asks for the article: a line, a line of its own, or nothing it can do. -/
def Article.resolve (lowercase : Text → Text) (a : Article U) (candidates : List (StockCandidate U)) :
    Except AppError (Option U) :=
  resolveTarget a.mode (mergeTarget lowercase a.line.name a.line.unit a.line.expiresOn candidates)

theorem landing_cases (created : List (U × ℕ)) (id : U) :
    (∃ creator, (id, creator) ∈ created ∧ landing created id = .Lot creator) ∨
      ((∀ c ∈ created, c.1 ≠ id) ∧ landing created id = .Stock id) := by
  rcases hfind : created.find? fun c => c.1 = id with _ | ⟨id', creator⟩
  · exact Or.inr ⟨fun c hc => by simpa using List.find?_eq_none.mp hfind c hc, by rw [landing, hfind]⟩
  · have hid : id' = id := by simpa using List.find?_some hfind
    subst hid
    exact Or.inl ⟨creator, List.mem_of_find?_eq_some hfind, by rw [landing, hfind]⟩

theorem planFrom_error {e : AppError} (h : a.resolve lowercase candidates = .error e) :
    planFrom lowercase index candidates created (a :: articles) = .error e := by
  rw [Article.resolve] at h
  rw [planFrom, h]
  rfl

theorem planFrom_merge {id : U} (h : a.resolve lowercase candidates = .ok (some id)) :
    planFrom lowercase index candidates created (a :: articles) =
      (planFrom lowercase (index + 1) candidates created articles).map (landing created id :: ·) := by
  rw [Article.resolve] at h
  rw [planFrom, h]
  cases planFrom lowercase (index + 1) candidates created articles <;> rfl

theorem planFrom_new (h : a.resolve lowercase candidates = .ok none) :
    planFrom lowercase index candidates created (a :: articles) =
      (planFrom lowercase (index + 1) (candidates ++ [a.candidate])
        (created ++ [(a.groceryItemId, index)]) articles).map (.New :: ·) := by
  rw [Article.resolve] at h
  rw [planFrom, h]
  cases planFrom lowercase (index + 1) (candidates ++ [a.candidate])
    (created ++ [(a.groceryItemId, index)]) articles <;> rfl

/-- An article is merged into what the proposal found. -/
theorem Article.resolve_some {id : U} (h : a.resolve lowercase candidates = .ok (some id)) :
    mergeTarget lowercase a.line.name a.line.unit a.line.expiresOn candidates = some id := by
  rw [Article.resolve] at h
  rcases hmode : a.mode with _ | _ | _
  · rw [hmode] at h
    exact Except.ok.inj h
  · rw [hmode] at h
    rcases hp : mergeTarget lowercase a.line.name a.line.unit a.line.expiresOn candidates with _ | id'
    · rw [hp] at h
      exact absurd h (by simp [resolveTarget])
    · rw [hp] at h
      exact Except.ok.inj h
  · rw [hmode] at h
    exact absurd h (by simp [resolveTarget])

end Home.Stocks
