import Mathlib.Data.Int.ConditionallyCompleteOrder
import ManageOurHome.Recipes.Agree

/-! @src apps/api/src/recipes/outcome.rs | layer:proof | family:recipes

    How the done preview shares the stock, on exact quantities. What a line has left is what it holds less what it gave;
    no line gives more than it has left, and one gives only once those before it are empty.

        lines    3 (oct) · 5 (nov) · 4 (no date)
        wanted   6           ⇒   3 · 3          left  0 · 2 · 4
        wanted   7           ⇒   2 · 4, capped  left  0 · 0 · 0 -/

namespace Home.Recipes

open Home.Stocks (articleKey)

variable {U : Type*} {lowercase : Text → Text}

/-- What some takes take from a line. -/
def takenOf [DecidableEq U] (u : U) (takes : List (Take U)) : ℚ :=
  ((takes.filter fun t => t.stockItemId = u).map Take.quantity).sum

/-- What some proposals take from a line together. -/
def takenBy [DecidableEq U] (u : U) (proposals : List (Proposal U)) : ℚ := takenOf u (proposals.flatMap Proposal.lots)

section

variable [DecidableEq U] {u : U} {takes takes' : List (Take U)} {take : Take U}

@[simp] theorem takenOf_nil : takenOf u [] = 0 := rfl

theorem takenOf_cons : takenOf u (take :: takes) =
    (if take.stockItemId = u then take.quantity else 0) + takenOf u takes := by
  by_cases h : take.stockItemId = u
  · simp [takenOf, h]
  · simp [takenOf, h]

theorem takenOf_append : takenOf u (takes ++ takes') = takenOf u takes + takenOf u takes' := by
  rw [takenOf, List.filter_append, List.map_append, List.sum_append, takenOf, takenOf]

theorem takenOf_eq_zero (h : ∀ take ∈ takes, take.stockItemId ≠ u) : takenOf u takes = 0 := by
  induction takes with
  | nil => rfl
  | cons take takes ih =>
    rw [takenOf_cons, if_neg (h take List.mem_cons_self), zero_add]
    exact ih fun t ht => h t (List.mem_cons_of_mem _ ht)

theorem exists_of_takenOf_ne (h : takenOf u takes ≠ 0) : ∃ take ∈ takes, take.stockItemId = u := by
  by_contra hnone
  push Not at hnone
  exact h (takenOf_eq_zero hnone)

theorem takenBy_append {proposals proposals' : List (Proposal U)} :
    takenBy u (proposals ++ proposals') = takenBy u proposals + takenBy u proposals' := by
  rw [takenBy, List.flatMap_append, takenOf_append, takenBy, takenBy]

theorem takenBy_singleton (p : Proposal U) : takenBy u [p] = takenOf u p.lots := by
  rw [takenBy, List.flatMap_singleton]

/-! ### One ingredient -/

/-- What a loop over lines took: some of them gave, none more than it had left, each once those before it are empty. -/
structure Took (lines : List (StockLine U)) (t r : Taking U) (takes : List (Take U)) : Prop where
  lots : r.lots = t.lots ++ takes
  left : ∀ u, r.left u = t.left u - takenOf u takes
  total : r.total = t.total + (takes.map Take.quantity).sum
  pos : ∀ take ∈ takes, 0 < take.quantity
  mem : ∀ take ∈ takes, ∃ s ∈ lines, s.id = take.stockItemId
  wanted : takes ≠ [] → 0 < t.still
  nonneg : ∀ s ∈ lines, 0 ≤ r.left s.id
  emptied : lines.Pairwise fun s s' => (∃ take ∈ takes, take.stockItemId = s'.id) → r.left s.id = 0

/-- Nothing more is wanted. -/
theorem took_nil {lines : List (StockLine U)} {t : Taking U} (hleft : ∀ s ∈ lines, 0 ≤ t.left s.id) :
    Took lines t t [] where
  lots := (List.append_nil _).symm
  left _ := by rw [takenOf_nil, sub_zero]
  total := by rw [List.map_nil, List.sum_nil, add_zero]
  pos := by simp
  mem := by simp
  wanted h := absurd rfl h
  nonneg := hleft
  emptied := List.pairwise_of_forall (by simp)

variable {lines : List (StockLine U)} {lot : StockLine U} {t r : Taking U}

theorem Took.stockItemId_ne (h : Took lines t r takes) (hlot : lot.id ∉ lines.map StockLine.id) :
    ∀ take ∈ takes, take.stockItemId ≠ lot.id := by
  intro take htake heq
  obtain ⟨s, hs, hid⟩ := h.mem take htake
  exact hlot (List.mem_map.mpr ⟨s, hs, hid.trans heq⟩)

/-- A line that has nothing left is passed over. -/
theorem Took.skip (h : Took lines t r takes) (hlot : lot.id ∉ lines.map StockLine.id) (hleft : t.left lot.id = 0) :
    Took (lot :: lines) t r takes := by
  have hempty : r.left lot.id = 0 := by
    rw [h.left, takenOf_eq_zero (h.stockItemId_ne hlot), hleft, sub_zero]
  refine ⟨h.lots, h.left, h.total, h.pos, ?_, h.wanted, ?_, ?_⟩
  · intro take htake
    obtain ⟨s, hs, hid⟩ := h.mem take htake
    exact ⟨s, List.mem_cons_of_mem _ hs, hid⟩
  · intro s hs
    rcases List.mem_cons.mp hs with rfl | hs
    · exact hempty.ge
    · exact h.nonneg s hs
  · exact List.pairwise_cons.mpr ⟨fun _ _ _ => hempty, h.emptied⟩

/-- A line gives what is wanted, or all it has left; those after it give only if it is empty then. -/
theorem Took.give (hlot : lot.id ∉ lines.map StockLine.id) (hstill : 0 < t.still) (hleft : 0 < t.left lot.id)
    (h : Took lines (t.step lot.id (min t.still (t.left lot.id))) r takes) :
    Took (lot :: lines) t r (⟨lot.id, min t.still (t.left lot.id)⟩ :: takes) := by
  have hother := h.stockItemId_ne hlot
  have hlotLeft : r.left lot.id = t.left lot.id - min t.still (t.left lot.id) := by
    rw [h.left, takenOf_eq_zero hother, sub_zero, step_left_self]
  refine ⟨?_, ?_, ?_, ?_, ?_, fun _ => hstill, ?_, ?_⟩
  · rw [h.lots, Taking.step, List.append_assoc, List.singleton_append]
  · intro u
    rw [h.left, takenOf_cons]
    by_cases hu : lot.id = u
    · subst hu
      rw [if_pos rfl, step_left_self, sub_sub]
    · rw [if_neg hu, zero_add, step_left_of_ne t _ (Ne.symm hu)]
  · rw [h.total, Taking.step, List.map_cons, List.sum_cons, add_assoc]
  · intro take htake
    rcases List.mem_cons.mp htake with rfl | htake
    · exact lt_min hstill hleft
    · exact h.pos take htake
  · intro take htake
    rcases List.mem_cons.mp htake with rfl | htake
    · exact ⟨lot, List.mem_cons_self, rfl⟩
    · obtain ⟨s, hs, hid⟩ := h.mem take htake
      exact ⟨s, List.mem_cons_of_mem _ hs, hid⟩
  · intro s hs
    rcases List.mem_cons.mp hs with rfl | hs
    · rw [hlotLeft]
      exact sub_nonneg.mpr (min_le_right _ _)
    · exact h.nonneg s hs
  · refine List.pairwise_cons.mpr ⟨?_, ?_⟩
    · -- a later line gives: more was still wanted than the line had left
      rintro s' hs' ⟨take, htake, hid⟩
      rcases List.mem_cons.mp htake with rfl | htake
      · exact absurd (List.mem_map.mpr ⟨s', hs', hid.symm⟩) hlot
      · have hmore : 0 < t.still - min t.still (t.left lot.id) := h.wanted (List.ne_nil_of_mem htake)
        have hmin : min t.still (t.left lot.id) = t.left lot.id := by
          rcases min_choice t.still (t.left lot.id) with hmin | hmin
          · rw [hmin, sub_self] at hmore
            exact absurd hmore (lt_irrefl 0)
          · exact hmin
        rw [hlotLeft, hmin, sub_self]
    · refine h.emptied.imp_of_mem ?_
      rintro s s' - hs' himp ⟨take, htake, hid⟩
      rcases List.mem_cons.mp htake with rfl | htake
      · exact absurd (List.mem_map.mpr ⟨s', hs', hid.symm⟩) hlot
      · exact himp ⟨take, htake, hid⟩

/-- RUN: what the loop over the lines of an ingredient took. -/
theorem exists_took (hids : (lines.map StockLine.id).Nodup) (hleft : ∀ s ∈ lines, 0 ≤ t.left s.id) :
    ∃ takes, Took lines t (Taking.over id lines t) takes := by
  induction lines generalizing t with
  | nil => exact ⟨[], took_nil hleft⟩
  | cons lot lines ih =>
    obtain ⟨hlot, hids⟩ := List.nodup_cons.mp hids
    have hrest : ∀ s ∈ lines, 0 ≤ t.left s.id := fun s hs => hleft s (List.mem_cons_of_mem _ hs)
    rw [over_cons]
    by_cases hstop : t.still ≤ 0
    · rw [if_pos hstop]
      exact ⟨[], took_nil hleft⟩
    · rw [if_neg hstop]
      by_cases hnone : t.left lot.id ≤ 0
      · rw [if_pos hnone]
        obtain ⟨takes, h⟩ := ih hids hrest
        exact ⟨takes, h.skip hlot (le_antisymm hnone (hleft lot List.mem_cons_self))⟩
      · rw [if_neg hnone]
        push Not at hstop hnone
        have hstep : ∀ s ∈ lines, 0 ≤ (t.step lot.id (min t.still (t.left lot.id))).left s.id := by
          intro s hs
          rw [step_left_of_ne t _ fun heq => hlot (List.mem_map.mpr ⟨s, hs, heq⟩)]
          exact hrest s hs
        obtain ⟨takes, h⟩ := ih hids hstep
        exact ⟨_, Took.give hlot hstop hnone h⟩

end

section

variable [LinearOrder U] {stock : List (StockLine U)} {left left' : U → ℚ} {ing : Ingredient} {p : Proposal U}

/-- The lines of an ingredient's name and unit. -/
def linesOf (lowercase : Text → Text) (ing : Ingredient) (stock : List (StockLine U)) : List (StockLine U) :=
  ofClass lowercase (articleKey lowercase ing.name) (unitKey lowercase ing.unit) stock

/-- A proposal made when the lines have `left` left, and what they have left after it. -/
structure Shared (lowercase : Text → Text) (stock : List (StockLine U)) (left : U → ℚ) (ing : Ingredient)
    (p : Proposal U) (left' : U → ℚ) : Prop where
  left_eq : ∀ u, left' u = left u - takenOf u p.lots
  nonneg : ∀ s ∈ stock, 0 ≤ left' s.id
  takes : ∀ take ∈ p.lots, 0 ≤ take.quantity ∧
    (0 < take.quantity → ∃ s ∈ linesOf lowercase ing stock, s.id = take.stockItemId)
  sum : p.quantity = (p.lots.map Take.quantity).sum
  quantity : p.quantity =
    ing.quantity.elim 0 fun wanted => min wanted ((linesOf lowercase ing stock).map fun s => left s.id).sum
  capped : p.warning = some .Capped ↔
    linesOf lowercase ing stock ≠ [] ∧ ∃ wanted, ing.quantity = some wanted ∧ p.quantity < wanted
  emptied : ∀ s ∈ linesOf lowercase ing stock, ∀ s' ∈ linesOf lowercase ing stock, lotKey s < lotKey s' →
    0 < takenOf s'.id p.lots → left' s.id = 0

theorem lotsInOrder_sorted {name unit : Text} :
    (lotsInOrder lowercase name unit stock).Pairwise fun s s' => lotKey s ≤ lotKey s' :=
  List.pairwise_insertionSort _ _

omit [LinearOrder U] in
theorem sum_left_eq (hleft : ∀ s ∈ stock, 0 ≤ left s.id) :
    leftIn left (linesOf lowercase ing stock) = ((linesOf lowercase ing stock).map fun s => left s.id).sum := by
  rw [leftIn]
  congr 1
  exact List.map_congr_left fun s hs => max_eq_left (hleft s (mem_ofClass.mp hs).1)

/-- Nothing is taken for an ingredient. -/
theorem shared_nothing {lots : List (Take U)} {warning : RemovalWarning} (hleft : ∀ s ∈ stock, 0 ≤ left s.id)
    (hlots : ∀ take ∈ lots, take.quantity = 0) (hwarning : warning ≠ .Capped)
    (hquantity : (linesOf lowercase ing stock = [] ∧ ∀ wanted, ing.quantity = some wanted → 0 ≤ wanted) ∨
      ing.quantity = none) :
    Shared lowercase stock left ing ⟨lots, 0, some warning⟩ left := by
  have hzero : ∀ u, takenOf u lots = 0 := fun u =>
    List.sum_eq_zero fun q hq => by
      obtain ⟨take, htake, rfl⟩ := List.mem_map.mp hq
      exact hlots take (List.mem_of_mem_filter htake)
  refine ⟨fun u => ?_, hleft, fun take htake => ?_, ?_, ?_, ?_, fun s _ s' _ _ hpos => ?_⟩
  · rw [hzero, sub_zero]
  · rw [hlots take htake]
    exact ⟨le_refl 0, fun h => absurd h (lt_irrefl 0)⟩
  · refine (List.sum_eq_zero fun q hq => ?_).symm
    obtain ⟨take, htake, rfl⟩ := List.mem_map.mp hq
    exact hlots take htake
  · rcases hquantity with ⟨hnil, hwanted⟩ | hnone
    · cases hq : ing.quantity with
      | none => rfl
      | some wanted => rw [hnil, Option.elim_some, List.map_nil, List.sum_nil, min_eq_right (hwanted wanted hq)]
    · rw [hnone, Option.elim_none]
  · refine iff_of_false (fun h => hwarning (Option.some.inj h)) ?_
    rintro ⟨hne, wanted, hq, -⟩
    rcases hquantity with ⟨hnil, -⟩ | hnone
    · exact hne hnil
    · exact absurd (hq.symm.trans hnone) (by simp)
  · rw [hzero] at hpos
    exact absurd hpos (lt_irrefl 0)

/-- What a loop over the lines of an ingredient took is shared. -/
theorem Took.shared {lots : List (StockLine U)} {r : Taking U} {takes : List (Take U)} {wanted : ℚ} {line : StockLine U}
    (htook : Took lots ⟨left, wanted, 0, []⟩ r takes) (hperm : lots.Perm (linesOf lowercase ing stock))
    (hsorted : lots.Pairwise fun s s' => lotKey s ≤ lotKey s') (hids : (stock.map StockLine.id).Nodup)
    (hleft : ∀ s ∈ stock, 0 ≤ left s.id) (hq : ing.quantity = some wanted) (hne : linesOf lowercase ing stock ≠ [])
    (htotal : r.total = min wanted (leftIn left (linesOf lowercase ing stock))) :
    Shared lowercase stock left ing ⟨if r.lots = [] then [⟨line.id, 0⟩] else r.lots, r.total,
      if r.total < wanted then some .Capped else none⟩ r.left := by
  have hmem : ∀ s, s ∈ lots ↔ s ∈ linesOf lowercase ing stock := fun s => hperm.mem_iff
  have hstock : ∀ s ∈ lots, s ∈ stock := fun s hs => (mem_ofClass.mp ((hmem s).mp hs)).1
  have hlots : r.lots = takes := htook.lots
  -- a take of nothing stands for a proposal that takes nothing
  have htaken : ∀ u, takenOf u (if takes = [] then [⟨line.id, 0⟩] else takes) = takenOf u takes := by
    intro u
    split
    · rename_i hnil
      rw [hnil, takenOf_cons, takenOf_nil, add_zero]
      exact ite_self 0
    · rfl
  rw [hlots]
  refine ⟨fun u => ?_, fun s hs => ?_, fun take htake => ?_, ?_, ?_, ?_, fun s hs s' hs' hlt hpos => ?_⟩
  · rw [htook.left, htaken]
  · by_cases hs' : s ∈ lots
    · exact htook.nonneg s hs'
    · have hother : ∀ take ∈ takes, take.stockItemId ≠ s.id := by
        intro take htake hid
        obtain ⟨s', hs'', hid'⟩ := htook.mem take htake
        exact hs' (List.inj_on_of_nodup_map hids (hstock s' hs'') hs (hid'.trans hid) ▸ hs'')
      rw [htook.left, takenOf_eq_zero hother, sub_zero]
      exact hleft s hs
  · dsimp only at htake
    split at htake
    · rw [List.mem_singleton.mp htake]
      exact ⟨le_refl 0, fun h => absurd h (lt_irrefl 0)⟩
    · obtain ⟨s, hs, hid⟩ := htook.mem take htake
      exact ⟨(htook.pos take htake).le, fun _ => ⟨s, (hmem s).mp hs, hid⟩⟩
  · dsimp only
    rw [htook.total, zero_add]
    split
    · rename_i hnil
      rw [hnil, List.map_nil, List.map_singleton, List.sum_nil, List.sum_singleton]
    · rfl
  · rw [hq, Option.elim_some, ← sum_left_eq hleft]
    exact htotal
  · dsimp only
    constructor
    · intro h
      refine ⟨hne, wanted, hq, ?_⟩
      by_contra hlt
      rw [if_neg hlt] at h
      exact absurd h (by simp)
    · rintro ⟨-, w, hw, hlt⟩
      obtain rfl := Option.some.inj (hq.symm.trans hw)
      exact if_pos hlt
  · rw [htaken] at hpos
    have htake := exists_of_takenOf_ne hpos.ne'
    obtain ⟨i, hi, rfl⟩ := List.getElem_of_mem ((hmem s).mpr hs)
    obtain ⟨j, hj, rfl⟩ := List.getElem_of_mem ((hmem s').mpr hs')
    rcases lt_trichotomy i j with hij | rfl | hji
    · exact List.pairwise_iff_getElem.mp htook.emptied i j hi hj hij htake
    · exact absurd hlt (lt_irrefl _)
    · exact absurd (List.pairwise_iff_getElem.mp hsorted j i hj hi hji) (not_le.mpr hlt)

variable (lowercase) in
/-- ONE: an ingredient is given what it wants, or all its lines have left, what expires first first. -/
theorem shared_proposeOne (hids : (stock.map StockLine.id).Nodup) (hleft : ∀ s ∈ stock, 0 ≤ left s.id)
    (hwanted : ∀ wanted, ing.quantity = some wanted → 0 ≤ wanted) :
    Shared lowercase stock left ing (proposeOne lowercase id stock left ing).1
      (proposeOne lowercase id stock left ing).2 := by
  rcases proposeOne_cases lowercase stock left ing with
    ⟨heq, hnone⟩ | ⟨line, hline, hname, ⟨heq, hnil⟩ | ⟨hnone, heq⟩ | ⟨wanted, hq, hunit, heq⟩⟩
  · have hnil : linesOf lowercase ing stock = [] := List.eq_nil_iff_forall_not_mem.mpr fun s hs =>
      hnone s (mem_ofClass.mp hs).1 (mem_ofClass.mp hs).2.1
    rw [heq]
    exact shared_nothing hleft (by simp) (by simp) (.inl ⟨hnil, hwanted⟩)
  · rw [heq]
    exact shared_nothing hleft (by simp) (by simp) (.inl ⟨hnil, hwanted⟩)
  · rw [heq]
    exact shared_nothing hleft (by simp) (by simp) (.inr hnone)
  · have hperm : (lotsInOrder lowercase ing.name (Stocks.normalizeUnit (ing.unit.getD [])) stock).Perm
        (linesOf lowercase ing stock) := lotsInOrder_perm
    have hinner := (hperm.map StockLine.id).nodup_iff.mpr (hids.sublist (List.filter_sublist.map _))
    obtain ⟨takes, htook⟩ := exists_took (t := ⟨left, wanted, 0, []⟩) hinner
      fun s hs => hleft s (mem_ofClass.mp (hperm.mem_iff.mp hs)).1
    rw [heq]
    exact htook.shared hperm lotsInOrder_sorted hids hleft hq
      (List.ne_nil_of_mem (mem_ofClass.mpr ⟨hline, hname, hunit⟩)) (lots_spec hids (hwanted wanted hq)).1

/-! ### One ingredient after the other -/

variable {ings : List Ingredient}

theorem length_proposeFrom : (proposeFrom lowercase id stock left ings).length = ings.length := by
  induction ings generalizing left with
  | nil => rfl
  | cons ing ings ih => rw [proposeFrom, List.length_cons, List.length_cons, ih]

theorem take_proposeFrom (n : ℕ) : (proposeFrom lowercase id stock left ings).take n =
    proposeFrom lowercase id stock left (ings.take n) := by
  induction ings generalizing left n with
  | nil => simp [proposeFrom]
  | cons ing ings ih =>
    cases n with
    | zero => rfl
    | succ n => rw [proposeFrom, List.take_succ_cons, List.take_succ_cons, proposeFrom, ih]

variable (lowercase) in
/-- RUN: what the lines have left is what they held less what was taken. -/
theorem leftAfter_eq (hids : (stock.map StockLine.id).Nodup) (hleft : ∀ s ∈ stock, 0 ≤ left s.id)
    (hwanted : ∀ ing ∈ ings, ∀ wanted, ing.quantity = some wanted → 0 ≤ wanted) :
    (∀ u, leftAfter lowercase stock left ings u = left u - takenBy u (proposeFrom lowercase id stock left ings)) ∧
    ∀ s ∈ stock, 0 ≤ leftAfter lowercase stock left ings s.id := by
  induction ings generalizing left with
  | nil => exact ⟨fun u => (sub_zero _).symm, hleft⟩
  | cons ing ings ih =>
    have hone := shared_proposeOne lowercase hids hleft (hwanted ing List.mem_cons_self)
    obtain ⟨hrest, hnonneg⟩ := ih hone.nonneg fun i hi => hwanted i (List.mem_cons_of_mem _ hi)
    refine ⟨fun u => ?_, hnonneg⟩
    rw [leftAfter, hrest, hone.left_eq, proposeFrom, ← List.singleton_append, takenBy_append, takenBy_singleton,
      sub_sub]

/-- PROPOSE: no line gives more than it holds; each ingredient gets what it wants, or all that the lines of its name and
    unit still hold after the earlier ones, from the lines that expire first; it is capped when these lines are there
    and hold less. -/
theorem propose_allocates (lowercase : Text → Text) {ingredients : List Ingredient} {stock : List (StockLine U)}
    (hids : (stock.map StockLine.id).Nodup) (hheld : ∀ s ∈ stock, 0 ≤ s.quantity)
    (hwanted : ∀ ing ∈ ingredients, ∀ wanted, ing.quantity = some wanted → 0 ≤ wanted) :
    let proposals := propose lowercase id ingredients stock
    proposals.length = ingredients.length ∧
    (∀ s ∈ stock, takenBy s.id proposals ≤ s.quantity) ∧
    ∀ n ing p, ingredients[n]? = some ing → proposals[n]? = some p →
      let lines := linesOf lowercase ing stock
      (∀ take ∈ p.lots, 0 ≤ take.quantity ∧ (0 < take.quantity → ∃ s ∈ lines, s.id = take.stockItemId)) ∧
      p.quantity = (p.lots.map Take.quantity).sum ∧
      p.quantity = ing.quantity.elim 0 (fun wanted =>
        min wanted (lines.map fun s => s.quantity - takenBy s.id (proposals.take n)).sum) ∧
      (p.warning = some .Capped ↔ lines ≠ [] ∧ ∃ wanted, ing.quantity = some wanted ∧ p.quantity < wanted) ∧
      ∀ s ∈ lines, ∀ s' ∈ lines, lotKey s < lotKey s' → 0 < takenOf s'.id p.lots →
        s.quantity - takenBy s.id (proposals.take (n + 1)) = 0 := by
  intro proposals
  have hheld' : ∀ s ∈ stock, held stock s.id = s.quantity := fun s hs => held_of_mem hids hs
  have hleft : ∀ s ∈ stock, 0 ≤ held stock s.id := fun s hs => (hheld' s hs).symm ▸ hheld s hs
  obtain ⟨hall, hnonneg⟩ := leftAfter_eq lowercase hids hleft hwanted
  refine ⟨length_proposeFrom, fun s hs => ?_, fun n ing p hing hp => ?_⟩
  · have := hnonneg s hs
    rw [hall, hheld' s hs] at this
    exact sub_nonneg.mp this
  · have hmem : ing ∈ ingredients := List.mem_of_getElem? hing
    have hbefore : ∀ i ∈ ingredients.take n, ∀ wanted, i.quantity = some wanted → 0 ≤ wanted := fun i hi =>
      hwanted i (List.mem_of_mem_take hi)
    obtain ⟨heq, hpos⟩ := leftAfter_eq lowercase hids hleft hbefore
    have hstill : ∀ s ∈ stock, leftAfter lowercase stock (held stock) (ingredients.take n) s.id =
        s.quantity - takenBy s.id (proposals.take n) := fun s hs => by
      rw [heq, hheld' s hs, ← take_proposeFrom]
      rfl
    have hshared := shared_proposeOne lowercase hids hpos (hwanted ing hmem)
    have hproposal : p = (proposeOne lowercase id stock
        (leftAfter lowercase stock (held stock) (ingredients.take n)) ing).1 := by
      have hget : proposals[n]? = _ := getElem?_proposeFrom
      rw [hget, hing, Option.map_some] at hp
      exact (Option.some.inj hp).symm
    rw [← hproposal] at hshared
    refine ⟨hshared.takes, hshared.sum, ?_, hshared.capped, fun s hs s' hs' hlt htaken => ?_⟩
    · rw [hshared.quantity]
      congr 1
      funext wanted
      congr 2
      exact List.map_congr_left fun s hs => hstill s (mem_ofClass.mp hs).1
    · have hempty := hshared.emptied s hs s' hs' hlt htaken
      have hs := (mem_ofClass.mp hs).1
      rw [hshared.left_eq, hstill s hs, sub_sub] at hempty
      have hlast : proposals.take (n + 1) = proposals.take n ++ [p] := by
        rw [List.take_add_one, hp]
        rfl
      rw [hlast, takenBy_append, takenBy_singleton]
      exact hempty

end

/-- Two boxes of eggs. -/
def boxes : List (StockLine ℕ) :=
  [⟨1, "Oeufs".toList, "pièce".toList, 5, some 20400⟩, ⟨2, "oeufs".toList, "pièce".toList, 3, some 20388⟩]

def sixEggs : List Ingredient := [⟨"oeufs".toList, some 6, some "pièce".toList⟩]

theorem propose_allocates_eggs : (propose asciiLowercase id sixEggs boxes)[0]? = some ⟨[⟨2, 3⟩, ⟨1, 3⟩], 6, none⟩ ∧
    3 - takenBy 2 ((propose asciiLowercase id sixEggs boxes).take 1) = 0 := by
  have hproposal : (propose asciiLowercase id sixEggs boxes)[0]? = some ⟨[⟨2, 3⟩, ⟨1, 3⟩], 6, none⟩ := by
    decide +kernel
  have h := (@propose_allocates _ _ asciiLowercase sixEggs boxes (by decide) (by decide) (by decide)).2.2 0 _ _ rfl
    hproposal
  exact ⟨hproposal, h.2.2.2.2 ⟨2, "oeufs".toList, "pièce".toList, 3, some 20388⟩ (by decide +kernel)
    ⟨1, "Oeufs".toList, "pièce".toList, 5, some 20400⟩ (by decide +kernel) (by decide +kernel) (by decide +kernel)⟩

/-- A line in another unit is shown, and is no cap. -/
theorem not_capped_of_other_unit : ¬∀ (ingredients : List Ingredient) (stock : List (StockLine ℕ)),
    (stock.map StockLine.id).Nodup → (∀ s ∈ stock, 0 ≤ s.quantity) →
    (∀ ing ∈ ingredients, ∀ wanted, ing.quantity = some wanted → 0 ≤ wanted) →
    ∀ (n : ℕ) (ing : Ingredient) (p : Proposal ℕ), ingredients[n]? = some ing →
      (propose asciiLowercase id ingredients stock)[n]? = some p →
      (∀ take ∈ p.lots, ∃ s ∈ stock, s.id = take.stockItemId ∧
        articleKey asciiLowercase s.unit = unitKey asciiLowercase ing.unit) ∧
      ∀ wanted, ing.quantity = some wanted → (p.warning = some .Capped ↔ p.quantity < wanted) := by
  intro hclaim
  have hproposal : (propose asciiLowercase id [⟨"oeufs".toList, some 6, some "kg".toList⟩] boxes)[0]? =
      some ⟨[⟨2, 0⟩], 0, some .UnitMismatch⟩ := by decide +kernel
  have h := hclaim [⟨"oeufs".toList, some 6, some "kg".toList⟩] boxes (by decide) (by decide) (by decide) 0 _ _ rfl
    hproposal
  exact absurd ((h.2 6 rfl).mpr (by decide)) (by simp)

end Home.Recipes
