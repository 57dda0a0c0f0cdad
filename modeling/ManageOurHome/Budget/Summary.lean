import Mathlib.Data.List.Dedup
import Mathlib.Data.List.Sort
import Mathlib.Logic.Relation
import ManageOurHome.Budget.Entries
import ManageOurHome.HttpGuard.Origin
import ManageOurHome.Lib.Grouped
import ManageOurHome.Lib.Net
import ManageOurHome.Time

/-! @src apps/api/src/budget/entries.rs | layer:model | family:budget

    The summary of a family's spending: its months, and one month by category and by payer. It is read in five
    statements of one READ COMMITTED transaction, each of what is committed when it starts. An amount is in cents here,
    the euros of the answer being written from them.

        periods ─▶ cap ─▶ categories ─▶ uncategorized ─▶ payers        commits in between
           │                  └──────── total ────────┘     │
           └── the point of the month                       └── without_payer = total - paid

    `U` and `C` are the types of user and category ids. -/

namespace Home.Budget.Summary

open Home.Groups (Role)
open Home.HttpGuard (splitOnce)
open Gregorian (Date)

variable {U C : Type*}

/-- What the summary reads of an expense. -/
structure Expense (U C : Type*) where
  amountCents : ℕ
  spentAt : NaiveDate
  category : Option C
  paidBy : Option U
  deriving DecidableEq

structure Category (C : Type*) where
  id : C
  name : Text
  color : Text
  monthlyCapCents : Option ℕ
  deriving DecidableEq

/-- A membership, with the name its user goes by now. -/
structure Member (U : Type*) where
  id : U
  role : Role
  displayName : Text
  deriving DecidableEq

/-- The rows of a family, under the keys of their tables: an expense is filed under a category of the family or none,
    and paid by a member or nobody. -/
structure Book (U C : Type*) where
  expenses : List (Expense U C)
  categories : List (Category C)
  members : List (Member U)
  monthlyCapCents : Option ℕ
  categories_nodup : (categories.map Category.id).Nodup
  members_nodup : (members.map Member.id).Nodup
  filed : ∀ e ∈ expenses, ∀ c, e.category = some c → c ∈ categories.map Category.id
  paid : ∀ e ∈ expenses, ∀ u, e.paidBy = some u → u ∈ members.map Member.id

/-! ### The answer -/

structure BudgetPeriodTotal where
  period : NaiveDate
  total : ℕ
  deriving DecidableEq

structure BudgetCategoryUsage (C : Type*) where
  id : C
  name : Text
  color : Text
  total : ℕ
  monthlyCap : Option ℕ
  percent : Option ℕ
  overCap : Bool
  deriving DecidableEq

structure BudgetPayerTotal (U : Type*) where
  userId : U
  displayName : Text
  total : ℕ
  deriving DecidableEq

structure BudgetMonthSummary (U C : Type*) where
  period : NaiveDate
  total : ℕ
  monthlyCap : Option ℕ
  percent : Option ℕ
  overCap : Bool
  categories : List (BudgetCategoryUsage C)
  uncategorized : ℕ
  payers : List (BudgetPayerTotal U)
  withoutPayer : ℤ
  deriving DecidableEq

structure BudgetSummary (U C : Type*) where
  periods : List BudgetPeriodTotal
  month : BudgetMonthSummary U C
  deriving DecidableEq

inductive Answer (U C : Type*) where
  | ok (summary : BudgetSummary U C)
  | refused (e : AppError)
  /-- A statement the database refuses: a sum past a `bigint`. -/
  | failed
  deriving DecidableEq

/-! ### Amounts and dates -/

def I64_MAX : ℕ := 2 ^ 63 - 1

/-- `i64::saturating_add`, of amounts. -/
def saturatingAdd (a b : ℕ) : ℕ := min (a + b) I64_MAX

def cents (expenses : List (Expense U C)) : ℕ := (expenses.map Expense.amountCents).sum

/-- `total_cents` against `cap_cents`: the share of the cap, in percent, and whether it is exceeded. -/
def capUsage (totalCents : ℕ) (capCents : Option ℕ) : Option ℕ × Bool :=
  match capCents.filter (0 < ·) with
  | some cap => (some (min (totalCents * 100 / cap) I64_MAX), cap < totalCents)
  | none => (none, false)

def before (a b : NaiveDate) : Bool :=
  a.year < b.year || (a.year == b.year && (a.month < b.month || (a.month == b.month && a.day < b.day)))

theorem trunc_exists (d : NaiveDate) : (-262143 : ℤ) ≤ d.year ∧ d.year ≤ 262142 ∧ 1 ≤ d.month ∧ d.month ≤ 12 ∧
    1 ≤ 1 ∧ 1 ≤ Gregorian.lastDay d.year d.month := by
  obtain ⟨hlo, hhi, hfirst, hlast, -⟩ := d.exists_
  exact ⟨hlo, hhi, hfirst, hlast, Nat.le_refl 1, Gregorian.lastDay_pos _ _⟩

/-- `date_trunc('month', d)`. -/
def truncMonth (d : NaiveDate) : NaiveDate := ⟨d.year, d.month, 1, trunc_exists d⟩

/-- `month.checked_add_months(1)`, of the first of a month. -/
def nextMonth (month : NaiveDate) : Option NaiveDate :=
  if month.month = 12 then Date.ofYmd (month.year + 1) 1 1 else Date.ofYmd month.year (month.month + 1) 1

/-- `YYYY-MM`, as the first day of that month. -/
def parseMonth (month : Text) : Option NaiveDate :=
  (splitOnce ['-'] month).bind fun (year, mon) =>
    if year.length ≠ 4 ∨ mon.length ≠ 2 then none
    else if (year ++ mon).all fun c => (Net.toDigit 10 c).isSome then
      Date.ofYmd (Net.value 10 year) (Net.value 10 mon) 1
    else none

/-! ### The statements -/

/-- How the database orders names in lower case, and ids. -/
structure Collation (U : Type*) where
  byName : Text → Text → Bool
  byId : U → U → Bool

section

variable [DecidableEq U] [DecidableEq C]

/-- `SUM(amount_cents)::bigint` of each group. -/
def totals {κ : Type*} (groups : List (κ × List (Expense U C))) : Option (List (κ × ℕ)) :=
  if groups.all fun g => cents g.2 ≤ I64_MAX then some (groups.map fun g => (g.1, cents g.2)) else none

def periodsQuery (book : Book U C) : Option (List (NaiveDate × ℕ)) :=
  let periods := (book.expenses.map fun e => truncMonth e.spentAt).dedup.insertionSort fun a b => before a b = false
  totals (periods.map fun period => (period, book.expenses.filter fun e => truncMonth e.spentAt = period))

/-- `spent_at >= month AND spent_at < next`. -/
def within (month next : NaiveDate) (e : Expense U C) : Bool := !before e.spentAt month && before e.spentAt next

def spentWithin (book : Book U C) (month next : NaiveDate) : List (Expense U C) :=
  book.expenses.filter (within month next)

def categoriesQuery (coll : Collation U) (book : Book U C) (month next : NaiveDate) : Option (List (Category C × ℕ)) :=
  let categories := book.categories.insertionSort fun a b => coll.byName a.name b.name = true
  totals (categories.map fun c => (c, (spentWithin book month next).filter fun e => e.category = some c.id))

def uncategorizedQuery (book : Book U C) (month next : NaiveDate) : Option ℕ :=
  let total := cents ((spentWithin book month next).filter fun e => e.category = none)
  if total ≤ I64_MAX then some total else none

/-- `ORDER BY 3 DESC, lower(u.display_name), e.paid_by`. -/
def payerBefore (coll : Collation U) (a b : Member U × ℕ) : Bool :=
  b.2 < a.2 || (b.2 == a.2 && (!coll.byName b.1.displayName a.1.displayName ||
    (coll.byName a.1.displayName b.1.displayName && coll.byId a.1.id b.1.id)))

def payersQuery (coll : Collation U) (book : Book U C) (month next : NaiveDate) : Option (List (Member U × ℕ)) :=
  let payers := book.members.filter fun m => (spentWithin book month next).any fun e => e.paidBy = some m.id
  let groups := payers.map fun m => (m, (spentWithin book month next).filter fun e => e.paidBy = some m.id)
  (totals groups).map fun rows => rows.insertionSort fun a b => payerBefore coll a b = true

/-- The month against the caps, by category and by payer. -/
def monthSummary (month : NaiveDate) (familyCap : Option ℕ) (categories : List (Category C × ℕ))
    (uncategorizedCents : ℕ) (payers : List (Member U × ℕ)) : BudgetMonthSummary U C :=
  let totalCents := categories.foldl (fun sum c => saturatingAdd sum c.2) uncategorizedCents
  let paidCents := payers.foldl (fun sum p => saturatingAdd sum p.2) 0
  let usage := capUsage totalCents familyCap
  { period := month
    total := totalCents
    monthlyCap := familyCap
    percent := usage.1
    overCap := usage.2
    categories := categories.map fun c =>
      let usage := capUsage c.2 c.1.monthlyCapCents
      ⟨c.1.id, c.1.name, c.1.color, c.2, c.1.monthlyCapCents, usage.1, usage.2⟩
    uncategorized := uncategorizedCents
    payers := payers.map fun p => ⟨p.1.id, p.1.displayName, p.2⟩
    withoutPayer := (totalCents : ℤ) - paidCents }

/-! ### A request -/

/-- `month` is the parameter as sent, if the query can be read; `today` is the day it is in Paris. -/
structure Request (U : Type*) where
  actor : U
  month : Option (Option Text)
  today : NaiveDate

/-- Where the request is, with the variables it holds there. -/
inductive Pc (U C : Type*) where
  | opened
  | periods (month next : NaiveDate)
  | cap (month next : NaiveDate) (periods : List (NaiveDate × ℕ))
  | categories (month next : NaiveDate) (periods : List (NaiveDate × ℕ)) (cap : Option ℕ)
  | uncategorized (month next : NaiveDate) (periods : List (NaiveDate × ℕ)) (cap : Option ℕ)
      (categories : List (Category C × ℕ))
  | payers (month next : NaiveDate) (periods : List (NaiveDate × ℕ)) (cap : Option ℕ)
      (categories : List (Category C × ℕ)) (uncategorizedCents : ℕ)
  | done (answer : Answer U C)

/-- `require_budget_access`. -/
def requireBudgetAccess (book : Book U C) (actor : U) : Except AppError Unit :=
  match book.members.find? fun m => m.id = actor with
  | none => .error .Forbidden
  | some m => if m.role = .owner ∨ m.role = .admin then .ok () else .error .NotFound

/-- The first day of the month asked for, or of today's. -/
def firstDay (today : NaiveDate) : Option Text → Option NaiveDate
  | some month => parseMonth month
  | none => some (truncMonth today)

/-- The month, and the next one. -/
def monthOf (request : Request U) : Option (NaiveDate × NaiveDate) :=
  request.month.bind fun asked => (firstDay request.today asked).bind fun month =>
    (nextMonth month).map fun next => (month, next)

/-- The next statement, on what is committed. -/
def advance (coll : Collation U) (request : Request U) (book : Book U C) : Pc U C → Pc U C
  | .opened =>
    match requireBudgetAccess book request.actor with
    | .error e => .done (.refused e)
    | .ok _ =>
      match monthOf request with
      | none => .done (.refused (.BadRequest "invalid_month"))
      | some (month, next) => .periods month next
  | .periods month next =>
    match periodsQuery book with
    | none => .done .failed
    | some periods => .cap month next periods
  | .cap month next periods => .categories month next periods book.monthlyCapCents
  | .categories month next periods cap =>
    match categoriesQuery coll book month next with
    | none => .done .failed
    | some categories => .uncategorized month next periods cap categories
  | .uncategorized month next periods cap categories =>
    match uncategorizedQuery book month next with
    | none => .done .failed
    | some uncategorizedCents => .payers month next periods cap categories uncategorizedCents
  | .payers month next periods cap categories uncategorizedCents =>
    match payersQuery coll book month next with
    | none => .done .failed
    | some payers => .done (.ok ⟨periods.map fun p => ⟨p.1, p.2⟩,
        monthSummary month cap categories uncategorizedCents payers⟩)
  | .done answer => .done answer

/-- What is committed, and where the summary is. -/
structure World (U C : Type*) where
  book : Book U C
  pc : Pc U C

/-- The summary takes its next statement, or other requests commit. -/
inductive StepIf (ok : World U C → Book U C → Prop) (coll : Collation U) (request : Request U) :
    World U C → World U C → Prop where
  | statement (w : World U C) : StepIf ok coll request w ⟨w.book, advance coll request w.book w.pc⟩
  | commit (w : World U C) (book : Book U C) : ok w book → StepIf ok coll request w ⟨book, w.pc⟩

/-- Any commits. -/
abbrev Step (coll : Collation U) (request : Request U) : World U C → World U C → Prop :=
  StepIf (fun _ _ => True) coll request

/-- The summary is between its periods and its payers. -/
def Pc.Reading : Pc U C → Bool
  | .cap .. | .categories .. | .uncategorized .. | .payers .. => true
  | _ => false

/-- Commits that leave the expenses as they are while the summary reads them. -/
def Undisturbed (w : World U C) (book : Book U C) : Prop := w.pc.Reading = true → book.expenses = w.book.expenses

/-- The breakdowns of a summary agree. -/
structure BudgetSummary.Consistent (summary : BudgetSummary U C) : Prop where
  point : summary.month.total =
    ((summary.periods.find? fun p => p.period = summary.month.period).map BudgetPeriodTotal.total).getD 0
  categories : summary.month.total =
    (summary.month.categories.map BudgetCategoryUsage.total).sum + summary.month.uncategorized
  payers : (summary.month.total : ℤ) =
    (summary.month.payers.map BudgetPayerTotal.total).sum + summary.month.withoutPayer
  withoutPayer : 0 ≤ summary.month.withoutPayer

end

/-! ### What the statements read -/

variable {coll : Collation U} {request : Request U} {book book' : Book U C} {month next : NaiveDate}
  {expenses : List (Expense U C)}

/-- What was spent in a month, filed under a category or not, and paid by someone. -/
def spent (expenses : List (Expense U C)) (month next : NaiveDate) : ℕ := cents (expenses.filter (within month next))

def filedCents (expenses : List (Expense U C)) (month next : NaiveDate) : ℕ :=
  cents ((expenses.filter (within month next)).filter fun e => e.category.isSome)

def unfiledCents (expenses : List (Expense U C)) (month next : NaiveDate) : ℕ :=
  cents ((expenses.filter (within month next)).filter fun e => e.category = none)

def paidCents (expenses : List (Expense U C)) (month next : NaiveDate) : ℕ :=
  cents ((expenses.filter (within month next)).filter fun e => e.paidBy.isSome)

theorem filed_add_unfiled (expenses : List (Expense U C)) (month next : NaiveDate) :
    filedCents expenses month next + unfiledCents expenses month next = spent expenses month next := by
  rw [filedCents, unfiledCents, spent, cents, cents, cents]
  induction expenses.filter (within month next) with
  | nil => rfl
  | cons e l ih =>
    cases hc : e.category with
    | none =>
      simp only [List.filter_cons, hc, Option.isSome_none, decide_true, if_true, Bool.false_eq_true, if_false,
        List.map_cons, List.sum_cons]
      omega
    | some c =>
      simp only [List.filter_cons, hc, Option.isSome_some, reduceCtorEq, decide_false, if_true, Bool.false_eq_true,
        if_false, List.map_cons, List.sum_cons]
      omega

theorem paid_le_spent (expenses : List (Expense U C)) (month next : NaiveDate) :
    paidCents expenses month next ≤ spent expenses month next :=
  (List.filter_sublist.map Expense.amountCents).sum_le_sum fun _ _ => Nat.zero_le _

theorem eq_of_totals {κ : Type*} {groups : List (κ × List (Expense U C))} {rows : List (κ × ℕ)}
    (h : totals groups = some rows) :
    rows = (groups.map fun g => (g.1, cents g.2)) ∧ ∀ g ∈ groups, cents g.2 ≤ I64_MAX := by
  unfold totals at h
  split at h
  · rename_i hall
    exact ⟨(Option.some.inj h).symm, fun g hg => of_decide_eq_true (List.all_eq_true.mp hall g hg)⟩
  · cases h

/-- The first of the month a date is in, and the month's range. -/
theorem within_iff (hday : month.day = 1) (hnext : nextMonth month = some next) (e : Expense U C) :
    within month next e = true ↔ truncMonth e.spentAt = month := by
  obtain ⟨year, mon, day, hexists⟩ := month
  obtain ⟨-, -, hmonth, hmonth', hd, -⟩ := e.spentAt.exists_
  obtain rfl : day = 1 := hday
  have htrunc : truncMonth e.spentAt = ⟨year, mon, 1, hexists⟩ ↔ e.spentAt.year = year ∧ e.spentAt.month = mon := by
    simp [truncMonth]
  rw [htrunc]
  unfold nextMonth at hnext
  simp only [within, before, Bool.and_eq_true, Bool.not_eq_true', Bool.or_eq_true, Bool.or_eq_false_iff,
    Bool.and_eq_false_iff, decide_eq_true_eq, decide_eq_false_iff_not, beq_iff_eq, beq_eq_false_iff_ne]
  split at hnext
  · obtain ⟨hy, hm, hday'⟩ := Date.ofYmd_eq_some.mp hnext
    rw [hy, hm, hday']
    simp only at *
    omega
  · obtain ⟨hy, hm, hday'⟩ := Date.ofYmd_eq_some.mp hnext
    rw [hy, hm, hday']
    simp only at *
    omega

/-- The point of a month is what was spent in it. -/
theorem point_of_periodsQuery {periods : List (NaiveDate × ℕ)} (h : periodsQuery book = some periods)
    (hday : month.day = 1) (hnext : nextMonth month = some next) :
    ((periods.find? fun p => p.1 = month).map Prod.snd).getD 0 = spent book.expenses month next ∧
      spent book.expenses month next ≤ I64_MAX := by
  obtain ⟨hrows, hfits⟩ := eq_of_totals h
  have hspent : cents (book.expenses.filter fun e => truncMonth e.spentAt = month) =
      spent book.expenses month next := by
    rw [spent]
    refine congrArg cents (List.filter_congr fun e _ => ?_)
    rw [Bool.eq_iff_iff, decide_eq_true_iff, within_iff hday hnext]
  have hmem : ∀ {p}, p ∈ ((book.expenses.map fun e => truncMonth e.spentAt).dedup.insertionSort fun a b => before a b = false) ↔
      ∃ e ∈ book.expenses, truncMonth e.spentAt = p := by
    intro p
    rw [(List.perm_insertionSort _ _).mem_iff, List.mem_dedup, List.mem_map]
  cases hfind : periods.find? fun p => p.1 = month with
  | some p =>
    have hp := List.mem_of_find?_eq_some hfind
    have hmonth : p.1 = month := by simpa using List.find?_some hfind
    rw [hrows] at hp
    obtain ⟨g, hg, rfl⟩ := List.mem_map.mp hp
    have hfit := hfits g hg
    obtain ⟨q, -, rfl⟩ := List.mem_map.mp hg
    obtain rfl : q = month := hmonth
    rw [← hspent]
    exact ⟨rfl, hfit⟩
  | none =>
    have hnone : book.expenses.filter (fun e => truncMonth e.spentAt = month) = [] := by
      rw [List.filter_eq_nil_iff]
      intro e he htrunc
      have hnot := List.find?_eq_none.mp hfind (month, cents (book.expenses.filter fun e => truncMonth e.spentAt = month))
      refine hnot ?_ (by simp)
      rw [hrows, List.mem_map]
      exact ⟨_, List.mem_map.mpr ⟨month, hmem.mpr ⟨e, he, of_decide_eq_true htrunc⟩, rfl⟩, rfl⟩
    rw [← hspent, hnone]
    exact ⟨rfl, Nat.zero_le _⟩

/-- The categories share out what is filed. -/
theorem sum_of_categoriesQuery [DecidableEq C] {categories : List (Category C × ℕ)}
    (h : categoriesQuery coll book month next = some categories) :
    (categories.map Prod.snd).sum = filedCents book.expenses month next := by
  obtain ⟨hrows, -⟩ := eq_of_totals h
  have hperm := (List.perm_insertionSort (fun a b => coll.byName a.name b.name = true) book.categories).map fun c =>
    cents ((spentWithin book month next).filter fun e => e.category = some c.id)
  rw [hrows, List.map_map, List.map_map]
  refine Eq.trans hperm.sum_eq ?_
  have hsum := Grouped.sum_sum_of_key (f := Expense.amountCents) (l := spentWithin book month next) book.categories_nodup
    fun e he => book.filed e (List.mem_filter.mp he).1
  rw [List.map_map] at hsum
  exact hsum

/-- The payers share out what is paid by someone. -/
theorem sum_of_payersQuery [DecidableEq U] {payers : List (Member U × ℕ)} (h : payersQuery coll book month next = some payers) :
    (payers.map Prod.snd).sum = paidCents book.expenses month next := by
  unfold payersQuery at h
  obtain ⟨rows, htotals, rfl⟩ := Option.map_eq_some_iff.mp h
  obtain ⟨hrows, -⟩ := eq_of_totals htotals
  rw [((List.perm_insertionSort (fun a b => payerBefore coll a b = true) rows).map Prod.snd).sum_eq, hrows, List.map_map, List.map_map]
  have hnodup : ((book.members.filter fun m => (spentWithin book month next).any fun e =>
      decide (e.paidBy = some m.id)).map Member.id).Nodup :=
    book.members_nodup.sublist (List.filter_sublist.map Member.id)
  have hpayer : ∀ e ∈ spentWithin book month next, ∀ u, e.paidBy = some u →
      u ∈ (book.members.filter fun m => (spentWithin book month next).any fun e =>
        decide (e.paidBy = some m.id)).map Member.id := by
    intro e he u hu
    obtain ⟨m, hm, rfl⟩ := List.mem_map.mp (book.paid e (List.mem_filter.mp he).1 u hu)
    refine List.mem_map_of_mem (List.mem_filter.mpr ⟨hm, ?_⟩)
    exact List.any_eq_true.mpr ⟨e, he, decide_eq_true hu⟩
  have hsum := Grouped.sum_sum_of_key (f := Expense.amountCents) hnodup hpayer
  rw [List.map_map] at hsum
  exact hsum

/-- Adding up amounts saturates or is a sum. -/
theorem foldl_saturatingAdd {α : Type*} (f : α → ℕ) (l : List α) {start : ℕ}
    (h : start + (l.map f).sum ≤ I64_MAX) : l.foldl (fun sum a => saturatingAdd sum (f a)) start = start + (l.map f).sum := by
  induction l generalizing start with
  | nil => rfl
  | cons a l ih =>
    rw [List.map_cons, List.sum_cons, ← Nat.add_assoc] at h
    have ha : saturatingAdd start (f a) = start + f a := Nat.min_eq_left (by omega)
    rw [List.foldl_cons, ha, ih h, List.map_cons, List.sum_cons, Nat.add_assoc]

/-- A summary of one month's expenses agrees with itself. -/
theorem consistent_of_sums {periods : List (NaiveDate × ℕ)} {cap : Option ℕ} {categories : List (Category C × ℕ)}
    {uncategorizedCents : ℕ} {payers : List (Member U × ℕ)}
    (hpoint : ((periods.find? fun p => p.1 = month).map Prod.snd).getD 0 = spent expenses month next)
    (hfits : spent expenses month next ≤ I64_MAX)
    (hcategories : (categories.map Prod.snd).sum = filedCents expenses month next)
    (huncategorized : uncategorizedCents = unfiledCents expenses month next)
    (hpayers : (payers.map Prod.snd).sum = paidCents expenses month next) :
    BudgetSummary.Consistent ⟨periods.map fun p => ⟨p.1, p.2⟩,
      monthSummary month cap categories uncategorizedCents payers⟩ := by
  have hall := filed_add_unfiled expenses month next
  have hpaid := paid_le_spent expenses month next
  have htotal : categories.foldl (fun sum c => saturatingAdd sum c.2) uncategorizedCents =
      spent expenses month next := by
    rw [foldl_saturatingAdd Prod.snd categories (by omega)]
    omega
  have hpaidFold : payers.foldl (fun sum p => saturatingAdd sum p.2) 0 = paidCents expenses month next := by
    rw [foldl_saturatingAdd Prod.snd payers (by omega)]
    omega
  have hfind : ((periods.map fun p => (⟨p.1, p.2⟩ : BudgetPeriodTotal)).find? fun p => p.period = month).map
      BudgetPeriodTotal.total = (periods.find? fun p => p.1 = month).map Prod.snd := by
    rw [List.find?_map, Option.map_map]
    rfl
  refine ⟨?_, ?_, ?_, ?_⟩
  · change categories.foldl (fun sum c => saturatingAdd sum c.2) uncategorizedCents =
      (((periods.map fun p => (⟨p.1, p.2⟩ : BudgetPeriodTotal)).find? fun p => p.period = month).map
        BudgetPeriodTotal.total).getD 0
    rw [htotal, hfind, hpoint]
  · simp only [monthSummary, List.map_map]
    rw [htotal]
    change _ = (categories.map Prod.snd).sum + _
    omega
  · simp only [monthSummary, List.map_map]
    rw [htotal, hpaidFold]
    change _ = ((payers.map Prod.snd).sum : ℤ) + _
    rw [hpayers]
    omega
  · simp only [monthSummary]
    rw [htotal, hpaidFold]
    omega

/-! ### Runs -/

theorem day_of_parseMonth {text : Text} (h : parseMonth text = some month) : month.day = 1 := by
  unfold parseMonth at h
  obtain ⟨⟨year, mon⟩, -, h⟩ := Option.bind_eq_some_iff.mp h
  simp only at h
  split_ifs at h
  exact (Date.ofYmd_eq_some.mp h).2.2

theorem day_of_firstDay {today : NaiveDate} {asked : Option Text} (h : firstDay today asked = some month) :
    month.day = 1 := by
  cases asked with
  | none =>
    cases h
    rfl
  | some text => exact day_of_parseMonth h

theorem month_of_monthOf (h : monthOf request = some (month, next)) : month.day = 1 ∧ nextMonth month = some next := by
  obtain ⟨asked, -, h⟩ := Option.bind_eq_some_iff.mp h
  obtain ⟨first, hfirst, h⟩ := Option.bind_eq_some_iff.mp h
  obtain ⟨second, hsecond, h⟩ := Option.map_eq_some_iff.mp h
  cases h
  exact ⟨day_of_firstDay hfirst, hsecond⟩

/-- A month's first day and the next one's, and the point of the month read. -/
structure Read (expenses : List (Expense U C)) (month next : NaiveDate) (periods : List (NaiveDate × ℕ)) : Prop where
  day_eq : month.day = 1
  next_eq : nextMonth month = some next
  point : ((periods.find? fun p => p.1 = month).map Prod.snd).getD 0 = spent expenses month next
  fits : spent expenses month next ≤ I64_MAX

/-- What has been read is of these expenses. -/
def Pc.Of (expenses : List (Expense U C)) : Pc U C → Prop
  | .opened => True
  | .periods month next => month.day = 1 ∧ nextMonth month = some next
  | .cap month next points => Read expenses month next points
  | .categories month next points _ => Read expenses month next points
  | .uncategorized month next points _ byCategory =>
    Read expenses month next points ∧ (byCategory.map Prod.snd).sum = filedCents expenses month next
  | .payers month next points _ byCategory uncategorizedCents =>
    Read expenses month next points ∧ (byCategory.map Prod.snd).sum = filedCents expenses month next ∧
      uncategorizedCents = unfiledCents expenses month next
  | .done answer => ∀ summary, answer = .ok summary → summary.Consistent

/-- What is known before the periods are read, and once the answer is given, is of any expenses. -/
theorem of_of_not_reading {pc : Pc U C} (h : pc.Of expenses) (hreading : pc.Reading = false)
    (expenses' : List (Expense U C)) : pc.Of expenses' := by
  cases pc with
  | opened => trivial
  | periods month next => exact h
  | done answer => exact h
  | cap => cases hreading
  | categories => cases hreading
  | uncategorized => cases hreading
  | payers => cases hreading

section

variable [DecidableEq U] [DecidableEq C]

/-- A statement adds to what is read of the expenses it reads. -/
theorem of_advance {pc : Pc U C} (h : pc.Of book.expenses) : (advance coll request book pc).Of book.expenses := by
  cases pc with
  | opened =>
    simp only [advance]
    split
    · exact fun summary hok => by cases hok
    · split
      · exact fun summary hok => by cases hok
      · rename_i hmonth
        exact month_of_monthOf hmonth
  | periods month next =>
    simp only [advance]
    split
    · exact fun summary hok => by cases hok
    · rename_i hperiods
      have hpoint := point_of_periodsQuery hperiods h.1 h.2
      exact ⟨h.1, h.2, hpoint.1, hpoint.2⟩
  | cap month next periods => exact h
  | categories month next periods cap =>
    simp only [advance]
    split
    · exact fun summary hok => by cases hok
    · rename_i hcategories
      exact ⟨h, sum_of_categoriesQuery hcategories⟩
  | uncategorized month next periods cap categories =>
    simp only [advance]
    split
    · exact fun summary hok => by cases hok
    · rename_i huncategorized
      unfold uncategorizedQuery at huncategorized
      simp only [Option.ite_none_right_eq_some, Option.some.injEq] at huncategorized
      exact ⟨h.1, h.2, huncategorized.2.symm⟩
  | payers month next periods cap categories uncategorizedCents =>
    simp only [advance]
    split
    · exact fun summary hok => by cases hok
    · rename_i hpayers
      intro summary hok
      cases hok
      exact consistent_of_sums h.1.point h.1.fits h.2.1 h.2.2 (sum_of_payersQuery hpayers)
  | done answer => exact h

theorem StepIf.of {w w' : World U C} (h : StepIf Undisturbed coll request w w') (hw : w.pc.Of w.book.expenses) :
    w'.pc.Of w'.book.expenses := by
  cases h with
  | statement => exact of_advance hw
  | commit book hok =>
    cases hreading : w.pc.Reading with
    | false => exact of_of_not_reading hw hreading book.expenses
    | true =>
      rw [hok hreading]
      exact hw

theorem of_run {w w' : World U C} (hw : w.pc.Of w.book.expenses)
    (hrun : Relation.ReflTransGen (StepIf Undisturbed coll request) w w') : w'.pc.Of w'.book.expenses := by
  induction hrun with
  | refl => exact hw
  | tail _ hstep ih => exact hstep.of ih

/-- A run in which no commit changes the expenses while the summary reads them ends with a summary that agrees with
    itself: the month's total is its point, its categories and its payers, and nothing paid is left over. -/
theorem budgetSummary_consistent {w w' : World U C} (hstart : w.pc = .opened)
    (hrun : Relation.ReflTransGen (StepIf Undisturbed coll request) w w') {summary : BudgetSummary U C}
    (hdone : w'.pc = .done (.ok summary)) : summary.Consistent := by
  have hof := of_run (by rw [hstart]; trivial) hrun
  rw [hdone] at hof
  exact hof summary rfl

end

/-! ### March 2026 -/

theorem march_exists : (-262143 : ℤ) ≤ 2026 ∧ (2026 : ℤ) ≤ 262142 ∧ 1 ≤ 3 ∧ 3 ≤ 12 ∧ 1 ≤ 15 ∧
    15 ≤ Gregorian.lastDay 2026 3 := by decide

def march15 : NaiveDate := ⟨2026, 3, 15, march_exists⟩

def byNumber : Collation ℕ := ⟨fun _ _ => true, fun a b => a ≤ b⟩

/-- An admin asks for March. -/
def inMarch : Request ℕ := ⟨1, some (some ['2', '0', '2', '6', '-', '0', '3']), march15⟩

def family : List (Member ℕ) := [⟨1, .admin, ['A']⟩]

def leisure : List (Category ℕ) := [⟨1, ['L'], ['b', 'l', 'u', 'e'], some 1000⟩]

theorem leisure_nodup : (leisure.map Category.id).Nodup := by decide

theorem family_nodup : (family.map Member.id).Nodup := by decide

def dinner : Expense ℕ ℕ := ⟨350, march15, some 1, some 1⟩

theorem dinner_filed : ∀ e ∈ [dinner], ∀ c, e.category = some c → c ∈ leisure.map Category.id := by
  simp [dinner, leisure]

theorem dinner_paid : ∀ e ∈ [dinner], ∀ u, e.paidBy = some u → u ∈ family.map Member.id := by
  simp [dinner, family]

def bookBefore : Book ℕ ℕ where
  expenses := []
  categories := leisure
  members := family
  monthlyCapCents := none
  categories_nodup := leisure_nodup
  members_nodup := family_nodup
  filed := fun _ he => absurd he List.not_mem_nil
  paid := fun _ he => absurd he List.not_mem_nil

/-- A dinner is written down. -/
def bookAfter : Book ℕ ℕ where
  expenses := [dinner]
  categories := leisure
  members := family
  monthlyCapCents := some 2000
  categories_nodup := leisure_nodup
  members_nodup := family_nodup
  filed := dinner_filed
  paid := dinner_paid

/-- The summary takes its statements up to the one of its payers. -/
theorem run_statements {ok : World U C → Book U C → Prop} [DecidableEq U] [DecidableEq C] (n : ℕ) (w : World U C) :
    Relation.ReflTransGen (StepIf ok coll request) w ⟨w.book, (advance coll request w.book)^[n] w.pc⟩ := by
  induction n with
  | zero => exact .refl
  | succ n ih =>
    rw [Function.iterate_succ_apply']
    exact ih.tail (.statement _)

/-- The family's cap is set once the summary has read its periods. -/
theorem capped_run : Relation.ReflTransGen (StepIf Undisturbed byNumber inMarch)
    ⟨{ bookAfter with monthlyCapCents := none }, .opened⟩
    ⟨bookAfter, (advance byNumber inMarch bookAfter)^[4]
      ((advance byNumber inMarch { bookAfter with monthlyCapCents := none })^[2] .opened)⟩ :=
  ((run_statements 2 _).tail (.commit _ bookAfter fun _ => rfl)).trans (run_statements 4 _)

theorem budgetSummary_consistent_capped : ∃ summary : BudgetSummary ℕ ℕ,
    summary.month.total = 350 ∧ summary.month.withoutPayer = 0 ∧ summary.Consistent :=
  ⟨_, rfl, rfl, budgetSummary_consistent rfl capped_run rfl⟩

/-- A dinner written down between the sum of the uncategorized and those of the payers: nobody paid less than nothing. -/
theorem dinner_between : ¬∀ (coll : Collation ℕ) (request : Request ℕ) (w w' : World ℕ ℕ)
    (summary : BudgetSummary ℕ ℕ), w.pc = .opened → Relation.ReflTransGen (Step coll request) w w' →
    w'.pc = .done (.ok summary) → summary.Consistent := by
  intro hall
  have hconsistent := hall byNumber inMarch ⟨bookBefore, .opened⟩ _ _ rfl
    (((run_statements 5 _).tail (.commit _ bookAfter trivial)).trans (run_statements 1 _)) rfl
  have hnegative : (-350 : ℤ) < 0 := by decide
  exact absurd hconsistent.withoutPayer (Int.not_le.mpr hnegative)

end Home.Budget.Summary
