import Mathlib.Algebra.BigOperators.Group.Finset.Basic
import ManageOurHome.Error
import ManageOurHome.Groups.Members
import ManageOurHome.Lib.ReadCommitted
import ManageOurHome.Text

/-! @src apps/api/src/budget (entries.rs, alerts.rs) | layer:model | family:budget

    The expenses of one family, their links to grocery items and the alerts on its caps, one transaction
    a request. Every write of an expense but a deletion and a creation out of the month takes the
    family's lock, the row of `budget_settings`; what is read under it is read by one at a time.

        create  category ─▶ payer ─▶ [lock] ─▶ watch ─▶ INSERT ─▶ links ─▶ fire ─▶ commit
        update  lock ─▶ row FOR UPDATE ─▶ category ─▶ payer ─▶ watch ─▶ UPDATE ─▶ links ─▶ fire ─▶ commit
        price   lock ─▶ item ─▶ linked row FOR UPDATE ─▶ watch ─▶ UPDATE / INSERT, link ─▶ fire ─▶ commit
        delete  row ─▶ DELETE ─▶ commit

    No request here deletes a member or a grocery item, so their `FOR KEY SHARE` holds nothing up and is
    a plain read. `U`, `E`, `C` and `I` are the types of user, expense, category and item ids. -/

namespace Home.Budget

open FiniteMap ReadCommitted
open Home.Groups (Role)

variable {U E C I : Type*}

structure Entry (U C : Type*) where
  createdBy : U
  name : Text
  amountCents : ℕ
  spentAt : ℤ
  category : Option C
  paidBy : Option U
  deriving DecidableEq

/-- The family's cap and its two switches. -/
structure Settings where
  cap : Option ℕ
  globalCapAlerts : Bool
  categoryCapAlerts : Bool
  deriving DecidableEq

/-- The row written on first use. -/
def Settings.default : Settings := ⟨none, true, true⟩

/-- The rows of `budget_settings`, `group_members`, `budget_categories`, `grocery_items`,
    `budget_entries`, `budget_entry_grocery_items` and `budget_alerts`, by their keys. -/
inductive Key (U E C I : Type*) where
  | settings
  | member (u : U)
  | category (c : C)
  | item (i : I)
  | entry (e : E)
  | link (e : E) (i : I)
  | alert (month : ℤ) (scope : Option C) (percent : ℕ)
  deriving DecidableEq

inductive Row (U C : Type*) where
  | settings (s : Settings)
  | member (role : Role)
  | category (cap : Option ℕ)
  | item (name : Text)
  | entry (e : Entry U C)
  | link
  | alert
  deriving DecidableEq

abbrev Rows (U E C I : Type*) := FMap (Key U E C I) (Row U C)

/-! ### Amounts, dates and thresholds -/

/-- The largest amount, in cents. -/
def AMOUNT_MAX_CENTS : ℕ := 1000000000000

/-- An amount in euros as cents; `roundCents` is `(amount * 100.0).round()`. -/
def amountToCents (roundCents : ℚ → ℕ) : F64 → Except AppError ℕ
  | .finite amount =>
    if amount < 0 then .error (.BadRequest "amount_must_be_non_negative")
    else if AMOUNT_MAX_CENTS < roundCents amount then .error (.BadRequest "amount_too_large")
    else .ok (roundCents amount)
  | _ => .error (.BadRequest "amount_must_be_non_negative")

def GROCERY_ITEMS_MAX : ℕ := 100

/-- The grocery items named, each once, in the order first named. -/
def groceryItemIds [DecidableEq I] (ids : List I) : Except AppError (List I) :=
  let ids := ids.reverse.dedup.reverse
  if GROCERY_ITEMS_MAX < ids.length then .error (.BadRequest "too_many_grocery_items") else .ok ids

/-- The Paris day of an instant, and the month of a day. -/
structure Calendar where
  parisDay : ℤ → ℤ
  monthOf : ℤ → ℤ

inductive Threshold where
  | EightyPercent | CapReached | OverCap
  deriving DecidableEq, Repr

def Threshold.percent : Threshold → ℕ
  | .EightyPercent => 80
  | .CapReached | .OverCap => 100

def Threshold.reached (t : Threshold) (totalCents capCents : ℕ) : Bool :=
  match t with
  | .EightyPercent => capCents * 80 ≤ totalCents * 100
  | .CapReached => capCents ≤ totalCents
  | .OverCap => capCents < totalCents

def FAMILY_THRESHOLDS : List Threshold := [.EightyPercent, .CapReached]

def CATEGORY_THRESHOLDS : List Threshold := [.OverCap]

/-- The thresholds a total crosses upward. -/
def crossed (thresholds : List Threshold) (beforeCents afterCents : ℕ) (cap : Option ℕ) :
    List Threshold :=
  match cap.filter (0 < ·) with
  | none => []
  | some cap => thresholds.filter fun t => !t.reached beforeCents cap && t.reached afterCents cap

/-! ### Requests -/

/-- `CreateBudgetEntryRequest`. -/
structure NewEntry (U C I : Type*) where
  name : Text
  amount : F64
  spentAt : Option ℤ
  groceryItemId : Option I
  groceryItemIds : List I
  category : Option C
  paidBy : Option U

/-- `UpdateBudgetEntryRequest`: `some none` is a field sent as `null`. -/
structure EntryPatch (U C I : Type*) where
  name : Option Text
  amount : Option F64
  spentAt : Option ℤ
  category : Option (Option C)
  groceryItemIds : Option (List I)
  paidBy : Option (Option U)

/-- `id` is the id the database draws for an expense; `order` is the order it returns expenses in. -/
inductive Request (U E C I : Type*) where
  | create (actor : U) (id : E) (body : NewEntry U C I)
  | update (actor : U) (e : E) (body : EntryPatch U C I)
  | price (actor : U) (id : E) (item : I) (amount : F64) (spentAt : Option ℤ) (order : Listing E)
  | delete (actor : U) (e : E)

/-- What an expense is drafted for, with the date and the items to check. -/
inductive Goal (I : Type*) where
  | create (spentAt : Option ℤ) (items : List I)
  | update (spentAt : ℤ) (items : Option (List I))

/-- An expense to write, its name and its amount checked: the rest is still to be. -/
structure Draft (U E C I : Type*) where
  actor : U
  id : E
  name : Text
  amountCents : ℕ
  category : Option C
  paidBy : Option U
  requireCategory : Option C
  requirePayer : Option U
  goal : Goal I

/-- What is written of the expense. -/
inductive Change (U C : Type*) where
  | insert (entry : Entry U C)
  | update (name : Text) (amountCents : ℕ) (spentAt : ℤ) (category : Option C) (paidBy : Option U)
  /-- A price set again, on an expense of this category. -/
  | price (name : Text) (amountCents : ℕ) (spentAt : ℤ) (category : Option C)

/-- The date the expense will have once written. -/
def Change.spentAt : Change U C → ℤ
  | .insert entry => entry.spentAt
  | .update _ _ spentAt _ _ => spentAt
  | .price _ _ spentAt _ => spentAt

/-- The category the expense will have once written. -/
def Change.category : Change U C → Option C
  | .insert entry => entry.category
  | .update _ _ _ category _ => category
  | .price _ _ _ category => category

/-- The columns an `UPDATE` sets. -/
def Change.set : Change U C → Entry U C → Entry U C
  | .insert entry, _ => entry
  | .update name amountCents spentAt category paidBy, old =>
    { old with name, amountCents, spentAt, category, paidBy }
  | .price name amountCents spentAt _, old => { old with name, amountCents, spentAt }

/-- What becomes of the expense's links. -/
inductive Links (I : Type*) where
  | keep
  | set (items : List I)
  /-- A new expense made by its item's price. -/
  | priced (item : I)

structure Write (U E C I : Type*) where
  actor : U
  id : E
  change : Change U C
  links : Links I

/-- The month's totals read before the write, and the caps they are held against. -/
structure Watch (C : Type*) where
  month : ℤ
  familyCap : Option ℕ
  category : Option (C × ℕ)
  family : ℕ
  ofCategory : ℕ

/-- The price of an item, to set. -/
structure Pricing (U E I : Type*) where
  actor : U
  id : E
  item : I
  amountCents : ℕ
  spentAt : Option ℤ
  order : Listing E

/-- What a transaction takes the family's lock for. -/
inductive After (U E C I : Type*) where
  | dating (d : Draft U E C I) (spentAt : Option ℤ) (items : List I)
  | updating (actor : U) (e : E) (body : EntryPatch U C I) (role : Role)
  | pricing (p : Pricing U E I)
  | watching (w : Write U E C I)

/-- Where a transaction is, with the variables it holds there. -/
inductive Pc (U E C I : Type*) where
  | opened (r : Request U E C I)
  | requiringCategory (d : Draft U E C I)
  | requiringPayer (d : Draft U E C I)
  | settling (k : After U E C I)
  | locking (k : After U E C I)
  | dating (d : Draft U E C I) (spentAt : Option ℤ) (items : List I)
  | rereading (actor : U) (e : E) (body : EntryPatch U C I) (role : Role)
  | naming (p : Pricing U E I)
  | linking (p : Pricing U E I) (name : Text)
  | redating (p : Pricing U E I) (name : Text) (linked : Option (E × Option C))
  | watching (w : Write U E C I)
  | capping (w : Write U E C I) (s : Settings)
  | totalling (w : Write U E C I) (familyCap : Option ℕ) (category : Option (C × ℕ))
  | writing (w : Write U E C I) (watch : Option (Watch C))
  | finding (w : Write U E C I) (watch : Option (Watch C)) (items : List I)
  | taking (w : Write U E C I) (watch : Option (Watch C)) (items : List I)
  | dropping (w : Write U E C I) (watch : Option (Watch C)) (items : List I)
  | adding (w : Write U E C I) (watch : Option (Watch C)) (items : List I)
  | attaching (w : Write U E C I) (watch : Option (Watch C)) (item : I)
  | firing (w : Write U E C I) (watch : Watch C)
  | alerting (id : E) (month : ℤ) (alert : Option C × Threshold) (rest : List (Option C × Threshold))
  | reading (actor : U) (e : E) (role : Role)
  | deleting (e : E)
  | refused (e : AppError)
  /-- A link of an item another expense is linked to. -/
  | uniqueViolation
  /-- Another error of the database: an id drawn twice. -/
  | failed
  | done (id : E)

/-! ### Statements -/

variable [DecidableEq U] [DecidableEq E] [DecidableEq C] [DecidableEq I]

/-- `require_budget_access`. -/
def budgetAccess (rows : Rows U E C I) (u : U) : Except AppError Role :=
  match rows.get (.member u) with
  | some (.member .standard) => .error .NotFound
  | some (.member role) => .ok role
  | _ => .error .Forbidden

def canModify (role : Role) (actorIsCreator : Bool) : Bool :=
  actorIsCreator || role = .owner || role = .admin

/-- What an expense adds to the total of its month, of the family or of one of its categories. -/
def Entry.counts (cal : Calendar) (month : ℤ) (scope : Option C) (e : Entry U C) : ℕ :=
  if cal.monthOf e.spentAt = month ∧ (scope = none ∨ e.category = scope) then e.amountCents else 0

def Row.counts (cal : Calendar) (month : ℤ) (scope : Option C) : Row U C → ℕ
  | .entry e => e.counts cal month scope
  | _ => 0

/-- `SUM(amount_cents)` of the month, of the family (`none`) or of a category. -/
def total (cal : Calendar) (month : ℤ) (scope : Option C) (rows : Rows U E C I) : ℕ :=
  ∑ k ∈ rows.keys, (rows.get k).elim 0 (Row.counts cal month scope)

/-- The items an expense is linked to. -/
def linkedItems (rows : Rows U E C I) (e : E) : Finset I :=
  rows.keys.biUnion fun k => match k with
    | .link e' i => if e' = e then {i} else ∅
    | _ => ∅

/-- The expenses an item is linked to. -/
def linkedEntries (rows : Rows U E C I) (i : I) : Finset E :=
  rows.keys.biUnion fun k => match k with
    | .link e i' => if i' = i then {e} else ∅
    | _ => ∅

/-- Whether one of the items is linked to another expense. -/
def taken (rows : Rows U E C I) (e : E) (items : List I) : Bool :=
  items.any fun i => ∃ e' ∈ linkedEntries rows i, e' ≠ e

/-- `SELECT … JOIN budget_entries … FOR UPDATE OF e`: the expenses the item is linked to, held. -/
def touchLinked (item : I) (rows : Rows U E C I) : FMap (Key U E C I) (Option (Row U C)) :=
  FMap.touch (fun k _ => match k with
    | .entry e => e ∈ linkedEntries rows item
    | _ => false) rows

/-- `INSERT INTO budget_entry_grocery_items … FROM unnest(items)`, the links there left as they are. -/
def insertLinks (e : E) (items : List I) (rows : Rows U E C I) :
    FMap (Key U E C I) (Option (Row U C)) :=
  items.foldl (fun change i =>
    if (rows.get (.link e i)).isSome then change else change.set (.link e i) (some (some .link)))
    FMap.empty

theorem get_insertLinks {rows : Rows U E C I} {e : E} {items : List I} {k : Key U E C I} {o : Option (Row U C)} :
    (insertLinks e items rows).get k = some o ↔
      o = some .link ∧ ∃ i ∈ items, k = .link e i ∧ rows.get k = none := by
  have hfold : ∀ (items : List I) (change : FMap (Key U E C I) (Option (Row U C))),
      (items.foldl (fun change i => if (rows.get (.link e i)).isSome then change
        else change.set (.link e i) (some (some .link))) change).get k = some o ↔
      (o = some .link ∧ ∃ i ∈ items, k = .link e i ∧ rows.get k = none) ∨
        ((∀ i ∈ items, ¬(k = .link e i ∧ rows.get k = none)) ∧ change.get k = some o) := by
    intro items
    induction items with
    | nil => intro change; simp
    | cons i items ih =>
      intro change
      rw [List.foldl_cons, ih]
      by_cases hi : k = .link e i ∧ rows.get k = none
      · obtain ⟨rfl, hnone⟩ := hi
        rw [if_neg (by rw [hnone]; simp), FMap.get_set_self]
        constructor
        · rintro (⟨ho, j, hj, hk⟩ | ⟨_, ho⟩)
          · exact Or.inl ⟨ho, j, List.mem_cons_of_mem _ hj, hk⟩
          · exact Or.inl ⟨(Option.some.inj ho).symm, i, List.mem_cons_self, rfl, hnone⟩
        · rintro (⟨ho, _⟩ | ⟨hnot, _⟩)
          · by_cases hlater : ∃ j ∈ items, Key.link e i = (.link e j : Key U E C I) ∧
                rows.get (.link e i) = none
            · exact Or.inl ⟨ho, hlater⟩
            · exact Or.inr ⟨fun j hj hk => hlater ⟨j, hj, hk⟩, by rw [ho]⟩
          · exact absurd ⟨rfl, hnone⟩ (hnot i List.mem_cons_self)
      · have hchange : (if (rows.get (.link e i)).isSome then change
            else change.set (.link e i) (some (some .link))).get k = change.get k := by
          split
          · rfl
          · rename_i hthere
            refine FMap.get_set_ne _ _ fun hk => hi ⟨hk, ?_⟩
            rw [hk]
            exact Option.not_isSome_iff_eq_none.mp hthere
        rw [hchange]
        simp only [List.exists_mem_cons_iff, List.forall_mem_cons, hi, false_or, not_false_eq_true,
          true_and]
  rw [insertLinks, hfold]
  simp

/-- The write of the expense itself. -/
def Write.entry (w : Write U E C I) (rows : Rows U E C I) : FMap (Key U E C I) (Option (Row U C)) :=
  match w.change with
  | .insert entry => FMap.insertAt (.entry w.id) (.entry entry) rows
  | change => FMap.updateWhere (fun k _ => k = .entry w.id) (fun
      | .entry old => .entry (change.set old)
      | row => row) rows

/-- After the expense and its links are written: the alerts. -/
def Write.fire (w : Write U E C I) : Option (Watch C) → Pc U E C I
  | none => .done w.id
  | some watch => .firing w watch

/-- After the expense is written: its links. -/
def Write.link (w : Write U E C I) (watch : Option (Watch C)) : Pc U E C I :=
  match w.links with
  | .keep => w.fire watch
  | .set items => .finding w watch items
  | .priced item => .attaching w watch item

/-- One alert after the other. -/
def alertAll (id : E) (month : ℤ) : List (Option C × Threshold) → Pc U E C I
  | [] => .done id
  | alert :: rest => .alerting id month alert rest

/-- The alerts a write sends, on what its month's totals have become. -/
def Watch.alerts (watch : Watch C) (family ofCategory : ℕ) : List (Option C × Threshold) :=
  (crossed FAMILY_THRESHOLDS watch.family family watch.familyCap).map ((none, ·)) ++
    match watch.category with
    | none => []
    | some (c, cap) =>
      (crossed CATEGORY_THRESHOLDS watch.ofCategory ofCategory (some cap)).map ((some c, ·))

/-- The items an expense is to be linked to, checked. -/
def Draft.checkItems (d : Draft U E C I) : Pc U E C I :=
  match d.goal with
  | .create spentAt items =>
    match groceryItemIds items with
    | .error e => .refused e
    | .ok [] => .dating d spentAt []
    | .ok items => .settling (.dating d spentAt items)
  | .update spentAt none =>
    .watching ⟨d.actor, d.id, .update d.name d.amountCents spentAt d.category d.paidBy, .keep⟩
  | .update spentAt (some items) =>
    match groceryItemIds items with
    | .error e => .refused e
    | .ok items =>
      .watching ⟨d.actor, d.id, .update d.name d.amountCents spentAt d.category d.paidBy, .set items⟩

def Draft.checkPayer (d : Draft U E C I) : Pc U E C I :=
  if d.requirePayer.isSome then .requiringPayer d else d.checkItems

def Draft.checkCategory (d : Draft U E C I) : Pc U E C I :=
  if d.requireCategory.isSome then .requiringCategory d else d.checkPayer

def After.resume (s : Settings) : After U E C I → Pc U E C I
  | .dating d spentAt items => .dating d spentAt items
  | .updating actor e body role => .rereading actor e body role
  | .pricing p => .naming p
  | .watching w => .capping w s

/-- The body of a creation, once the role is read. -/
def NewEntry.draft (roundCents : ℚ → ℕ) (actor : U) (id : E) (body : NewEntry U C I) : Pc U E C I :=
  let name := trim body.name
  if name = [] then .refused (.BadRequest "name_required")
  else match amountToCents roundCents body.amount with
  | .error e => .refused e
  | .ok cents =>
    Draft.checkCategory ⟨actor, id, name, cents, body.category, body.paidBy, body.category, body.paidBy,
      .create body.spentAt (body.groceryItemId.toList ++ body.groceryItemIds)⟩

/-- The body of an update, once the row is read and held. -/
def EntryPatch.draft (roundCents : ℚ → ℕ) (actor : U) (e : E) (body : EntryPatch U C I)
    (old : Entry U C) : Pc U E C I :=
  let name := body.name.map trim
  let amountCents := match body.amount with
    | some amount => amountToCents roundCents amount
    | none => .ok old.amountCents
  if name = some [] then .refused (.BadRequest "name_required")
  else match amountCents with
  | .error err => .refused err
  | .ok cents =>
    Draft.checkCategory ⟨actor, e, name.getD old.name, cents, body.category.getD old.category,
      body.paidBy.getD old.paidBy, body.category.getD none, body.paidBy.getD none,
      .update (body.spentAt.getD old.spentAt) body.groceryItemIds⟩

variable (cal : Calendar) (roundCents : ℚ → ℕ)

/-- The requests, statement by statement. A commit is remembered by the expense it wrote. -/
def code : Pc U E C I → Stmt (Key U E C I) (Row U C) Empty E (Pc U E C I)
  | .opened (.create actor id body) => .query fun rows =>
      match budgetAccess rows actor with
      | .error e => .refused e
      | .ok _ => body.draft roundCents actor id
  | .opened (.update actor e body) => .query fun rows =>
      match budgetAccess rows actor with
      | .error e => .refused e
      | .ok role => .settling (.updating actor e body role)
  | .opened (.price actor id item amount spentAt order) => .query fun rows =>
      match budgetAccess rows actor with
      | .error e => .refused e
      | .ok _ =>
        match amountToCents roundCents amount with
        | .error e => .refused e
        | .ok cents => .settling (.pricing ⟨actor, id, item, cents, spentAt, order⟩)
  | .opened (.delete actor e) => .query fun rows =>
      match budgetAccess rows actor with
      | .error e => .refused e
      | .ok role => .reading actor e role
  | .requiringCategory d => .query fun rows =>
      if d.requireCategory.all fun c => (rows.get (.category c)).isSome then d.checkPayer
      else .refused .NotFound
  | .requiringPayer d => .query fun rows =>
      if d.requirePayer.all fun u => (rows.get (.member u)).isSome then d.checkItems
      else .refused (.BadRequest "paid_by_not_a_member")
  -- `lock_settings`
  | .settling k => .write (FMap.insertAt .settings (.settings Settings.default)) fun _ => .locking k
  | .locking k => .write (FMap.touch fun key _ => key = .settings) fun rows =>
      match rows.get .settings with
      | some (.settings s) => k.resume s
      | _ => .failed
  | .dating d spentAt items => .clock fun now =>
      .watching ⟨d.actor, d.id, .insert ⟨d.actor, d.name, d.amountCents,
        spentAt.getD (cal.parisDay now), d.category, d.paidBy⟩,
        if items = [] then .keep else .set items⟩
  | .rereading actor e body role => .write (FMap.touch fun key _ => key = .entry e) fun rows =>
      match rows.get (.entry e) with
      | some (.entry old) =>
        if canModify role (old.createdBy = actor) then body.draft roundCents actor e old
        else .refused .Forbidden
      | _ => .refused .NotFound
  | .naming p => .query fun rows =>
      match rows.get (.item p.item) with
      | some (.item name) => .linking p name
      | _ => .refused .NotFound
  | .linking p name => .write (touchLinked p.item) fun rows =>
      let linked := (linkedEntries rows p.item).filter fun e => (rows.get (.entry e)).isSome
      match (p.order.list linked).head? with
      | none => .redating p name none
      | some e =>
        if 1 < (linkedItems rows e).card then .refused (.Conflict "grocery_item_priced_with_others")
        else .redating p name (some (e, match rows.get (.entry e) with
          | some (.entry old) => old.category
          | _ => none))
  | .redating p name linked => .clock fun now =>
      let spentAt := p.spentAt.getD (cal.parisDay now)
      match linked with
      | some (e, category) =>
        .watching ⟨p.actor, e, .price name p.amountCents spentAt category, .keep⟩
      | none =>
        .watching ⟨p.actor, p.id, .insert ⟨p.actor, name, p.amountCents, spentAt, none, none⟩,
          .priced p.item⟩
  | .watching w => .clock fun now =>
      if cal.monthOf w.change.spentAt = cal.monthOf (cal.parisDay now) then .settling (.watching w)
      else .writing w none
  | .capping w s => .query fun rows =>
      let familyCap := if s.globalCapAlerts then s.cap else none
      let category := if s.categoryCapAlerts then w.change.category.bind fun c =>
          match rows.get (.category c) with
          | some (.category cap) => cap.map ((c, ·))
          | _ => none
        else none
      if familyCap = none ∧ category = none then .writing w none else .totalling w familyCap category
  | .totalling w familyCap category => .query fun rows =>
      let month := cal.monthOf w.change.spentAt
      .writing w (some ⟨month, familyCap, category, total cal month none rows,
        category.elim 0 fun c => total cal month (some c.1) rows⟩)
  | .writing w watch => .write w.entry fun rows =>
      match w.change with
      | .insert _ => if (rows.get (.entry w.id)).isSome then .failed else w.link watch
      | _ => if (rows.get (.entry w.id)).isSome then w.link watch else .failed
  -- `set_links`
  | .finding w watch items => .query fun rows =>
      if items.all fun i => (rows.get (.item i)).isSome then .taking w watch items
      else .refused .NotFound
  | .taking w watch items => .query fun rows =>
      if taken rows w.id items then .refused (.Conflict "grocery_item_already_priced")
      else .dropping w watch items
  | .dropping w watch items => .write
      (FMap.deleteWhere fun k _ => match k with
        | .link e i => e = w.id ∧ i ∉ items
        | _ => false)
      fun _ => .adding w watch items
  | .adding w watch items => .write
      (fun rows => if taken rows w.id items then FMap.empty else insertLinks w.id items rows)
      fun rows => if taken rows w.id items then .uniqueViolation else w.fire watch
  | .attaching w watch item => .write
      (fun rows => if (linkedEntries rows item).Nonempty then FMap.empty
        else FMap.one (.link w.id item) (some .link))
      fun rows => if (linkedEntries rows item).Nonempty then .uniqueViolation else w.fire watch
  -- `Watch::fire`
  | .firing w watch => .query fun rows =>
      alertAll w.id watch.month (watch.alerts (total cal watch.month none rows)
        (watch.category.elim 0 fun c => total cal watch.month (some c.1) rows))
  | .alerting id month alert rest => .write
      (FMap.insertAt (.alert month alert.1 alert.2.percent) .alert) fun _ => alertAll id month rest
  | .reading actor e role => .query fun rows =>
      match rows.get (.entry e) with
      | some (.entry old) =>
        if canModify role (old.createdBy = actor) then .deleting e else .refused .Forbidden
      | _ => .refused .NotFound
  | .deleting e => .write
      (FMap.deleteWhere fun k _ => match k with
        | .entry e' => e' = e
        | .link e' _ => e' = e
        | _ => false)
      fun _ => .done e
  | .refused _ => .rollback
  | .uniqueViolation => .rollback
  | .failed => .rollback
  | .done id => .commit id

variable {cal roundCents} in
theorem eq_done {pc : Pc U E C I} {e : E} (h : code cal roundCents pc = .commit e) :
    pc = .done e := by
  cases pc with
  | done id => exact congrArg Pc.done (Stmt.commit.inj h)
  | opened r => cases r <;> exact absurd h (by simp [code])
  | _ => exact absurd h (by simp [code])

/-- Any request. -/
inductive Starts : Pc U E C I → Prop where
  | request (r : Request U E C I) : Starts (.opened r)

end Home.Budget
