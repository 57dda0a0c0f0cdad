import Mathlib.Algebra.GroupWithZero.Nat
import Mathlib.Algebra.Order.Ring.Rat
import ManageOurHome.Error
import ManageOurHome.Groups.Members
import ManageOurHome.Stocks.Merge

/-! @src apps/api/src/stocks (items.rs, barcode.rs), apps/shared/src/validation/stocks.rs | layer:model |
    family:stocks

    A stock line, and the two requests that write one whole: what they check, and the line they make.
    `M` is the type of user ids, a date its day number. -/

namespace Home.Stocks

open Home.Groups (Role)

variable {M : Type*}

structure StockItem (M : Type*) where
  createdBy : M
  name : Text
  category : Option Text
  quantity : ℚ
  unit : Text
  reorderThreshold : Option ℚ
  expiresOn : Option ℤ
  barcode : Option Text
  deriving DecidableEq

structure CreateStockItemRequest where
  name : Text
  category : Option Text
  quantity : F64
  unit : Text
  reorderThreshold : Option F64
  expiresOn : Option ℤ
  barcode : Option Text

/-- `some none` clears the field, `none` leaves it. -/
structure UpdateStockItemRequest where
  name : Option Text
  category : Option (Option Text)
  quantity : Option F64
  unit : Option Text
  reorderThreshold : Option (Option F64)
  expiresOn : Option (Option ℤ)

def canModify (role : Role) (actorIsCreator : Bool) : Bool :=
  actorIsCreator || role = .owner || role = .admin

/-! ### Checks -/

/-- A quantity not negative, finite and at most `MAX_QUANTITY`; `NaN` is found by the second test. -/
def checkBounds (negative tooLarge : String) : F64 → Except AppError ℚ
  | .finite q =>
    if q < 0 then .error (.BadRequest negative)
    else if MAX_QUANTITY < q then .error (.BadRequest tooLarge)
    else .ok q
  | .infinite true => .error (.BadRequest negative)
  | .infinite false | .nan => .error (.BadRequest tooLarge)

/-- The quantity, then the reorder threshold. -/
def checkQuantities (quantity : F64) (reorderThreshold : Option F64) :
    Except AppError (ℚ × Option ℚ) := do
  let q ← checkBounds "quantity_must_be_non_negative" "quantity_too_large" quantity
  match reorderThreshold with
  | none => return (q, none)
  | some t => return (q, some (← checkBounds "reorder_threshold_must_be_non_negative"
      "reorder_threshold_too_large" t))

/-- The weights of the check digit, from the rightmost one leftwards: 1, 3, 1, 3… -/
def checkDigitHolds (code : Text) : Bool :=
  ((code.reverse.zipIdx.map fun (c, i) => (c.toNat - '0'.toNat) * if i % 2 = 0 then 1 else 3).sum) % 10 = 0

/-- The code of an article: EAN-13, EAN-8, or UPC-A under its 13 digits. -/
def normalize (raw : Text) : Option Text :=
  let digits := raw.filter fun c => !isWhitespace c
  if digits = [] ∨ ¬digits.all Char.isDigit then none
  else
    let code := match digits.length with
      | 8 | 13 => some digits
      | 12 => some ('0' :: digits)
      | _ => none
    code.filter checkDigitHolds

/-- The code to store for a creation. -/
def barcodeToStore (barcode : Option Text) : Except AppError (Option Text) :=
  match barcode.map trim with
  | none | some [] => .ok none
  | some raw =>
    match normalize raw with
    | some code => .ok (some code)
    | none => .error (.BadRequest "invalid_barcode")

/-! ### The line made -/

/-- The line a creation inserts. -/
def CreateStockItemRequest.item (body : CreateStockItemRequest) (actor : M) :
    Except AppError (StockItem M) :=
  let name := trim body.name
  if name = [] then .error (.BadRequest "name_required")
  else match checkQuantities body.quantity body.reorderThreshold with
  | .error e => .error e
  | .ok (quantity, reorderThreshold) =>
    match barcodeToStore body.barcode with
    | .error e => .error e
    | .ok barcode => .ok ⟨actor, name, body.category, quantity, normalizeUnit body.unit,
        reorderThreshold, body.expiresOn, barcode⟩

/-- Whether a change is more than a quantity. -/
def UpdateStockItemRequest.touchesFullRecord (body : UpdateStockItemRequest) : Bool :=
  body.name.isSome || body.category.isSome || body.unit.isSome || body.reorderThreshold.isSome ||
    body.expiresOn.isSome

/-- The line an update writes over `existing`. A quantity alone is checked alone. -/
def UpdateStockItemRequest.item (body : UpdateStockItemRequest) (existing : StockItem M) :
    Except AppError (StockItem M) :=
  let name := body.name.map trim
  let quantity := body.quantity.getD (.finite existing.quantity)
  let reorderThreshold := body.reorderThreshold.getD (existing.reorderThreshold.map .finite)
  if name = some [] then .error (.BadRequest "name_required")
  else match checkQuantities quantity (if body.touchesFullRecord then reorderThreshold else none) with
  | .error e => .error e
  | .ok (quantity, checked) => .ok { existing with
      name := name.getD existing.name
      category := body.category.getD existing.category
      quantity := quantity
      unit := (body.unit.map normalizeUnit).getD existing.unit
      reorderThreshold := if body.touchesFullRecord then checked else existing.reorderThreshold
      expiresOn := body.expiresOn.getD existing.expiresOn }

/-! ### What is checked holds -/

/-- A quantity a stock line may hold. -/
def Holdable (q : ℚ) : Prop := 0 ≤ q ∧ q ≤ MAX_QUANTITY

section

variable {f : F64} {q : ℚ} {negative tooLarge : String} {actor : M} {item existing : StockItem M}

theorem holdable_of_checkBounds (h : checkBounds negative tooLarge f = .ok q) :
    f = .finite q ∧ Holdable q := by
  cases f with
  | finite x =>
    rw [checkBounds] at h
    split at h
    · exact absurd h (by simp)
    · rename_i hneg
      split at h
      · exact absurd h (by simp)
      · rename_i hmax
        obtain rfl := Except.ok.inj h
        exact ⟨rfl, not_lt.mp hneg, not_lt.mp hmax⟩
  | infinite negative => cases negative <;> exact absurd h (by simp [checkBounds])
  | nan => exact absurd h (by simp [checkBounds])

theorem holdable_of_checkQuantities {t : Option F64} {checked : Option ℚ}
    (h : checkQuantities f t = .ok (q, checked)) : f = .finite q ∧ Holdable q := by
  rw [checkQuantities] at h
  rcases hb : checkBounds "quantity_must_be_non_negative" "quantity_too_large" f with e | x
  · rw [hb] at h
    exact absurd h (by simp [bind, Except.bind])
  · rw [hb] at h
    have hx : x = q := by
      rcases t with _ | t
      · exact (Prod.mk.inj (Except.ok.inj h)).1
      · rcases ht : checkBounds "reorder_threshold_must_be_non_negative" "reorder_threshold_too_large" t with
          e | y
        · simp only [bind, Except.bind, ht] at h
          exact absurd h (by simp)
        · simp only [bind, Except.bind, ht] at h
          exact (Prod.mk.inj (Except.ok.inj h)).1
    exact hx ▸ holdable_of_checkBounds hb

/-- A line created holds what was asked. -/
theorem CreateStockItemRequest.quantity_of_item {body : CreateStockItemRequest}
    (h : body.item actor = .ok item) : body.quantity = .finite item.quantity ∧ Holdable item.quantity := by
  rw [CreateStockItemRequest.item] at h
  split at h
  · exact absurd h (by simp)
  · split at h
    · exact absurd h (by simp)
    · rename_i hq
      split at h
      · exact absurd h (by simp)
      · obtain rfl := Except.ok.inj h
        exact holdable_of_checkQuantities hq

/-- A line updated holds what was asked, or what it held. -/
theorem UpdateStockItemRequest.quantity_of_item {body : UpdateStockItemRequest}
    (h : body.item existing = .ok item) :
    body.quantity.getD (.finite existing.quantity) = .finite item.quantity ∧ Holdable item.quantity := by
  rw [UpdateStockItemRequest.item] at h
  split at h
  · exact absurd h (by simp)
  · split at h
    · exact absurd h (by simp)
    · rename_i hq
      obtain rfl := Except.ok.inj h
      exact holdable_of_checkQuantities hq

end

end Home.Stocks
