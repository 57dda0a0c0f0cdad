import ManageOurHome.Stocks.Store

/-! @src apps/api/src/stocks (items.rs, reception.rs), apps/api/src/recipes/outcome.rs | layer:proof |
    family:stocks

    What a family's stock holds is what its requests put there and took from it, in any interleaving:
    each commit changes the lines its answer names by what it says, from what was committed before it.
    A request is followed by its `phase`: the lines it has written, each with what stands in the database
    under it, and which nobody else writes before it ends.

        committed   line 7 ─ 3 ──────────────────────────────▶ 3 ──▶ 2
        reception            UPDATE 3 + 1      UPDATE 4 + …
        its phase            3 + receivedOn … 7 -/

namespace Home.Stocks

open FiniteMap ReadCommitted Relation
open Home.Recipes (NewIngredient removalsToApply checkOthers removalsFrom othersFrom remainingAfter)

variable {M U : Type*}

/-! ### What a commit owes -/

/-- What a row holds; 0 when there is none. -/
def quantityOf : Option (Row M U) → ℚ
  | some (.stock i) => i.quantity
  | _ => 0

/-- What a line holds. -/
def quantityAt (rows : Rows M U) (u : U) : ℚ := quantityOf (rows.get (.stock u))

/-- Every line holds a quantity it may hold. -/
def InBounds (rows : Rows M U) : Prop :=
  ∀ u row, rows.get (.stock u) = some row → ∃ i, row = .stock i ∧ Holdable i.quantity

/-- Every other line, and the grocery list, as before. -/
structure Only (u : U) (before after : Rows M U) : Prop where
  stock : ∀ v, v ≠ u → after.get (.stock v) = before.get (.stock v)
  groceries : ∀ g, after.get (.grocery g) = before.get (.grocery g)

/-- The row a grocery item was read from. -/
def GroceryLine.row (g : GroceryLine U) : Row M U := .grocery ⟨g.name, g.quantity, g.unit⟩

variable [LinearOrder U]

/-- What articles add to a line, each landing where `landed` says. -/
def receivedOn (articles : List (Article U)) (landed : List U) (u : U) : ℚ :=
  ((articles.zip landed).map fun p => if p.2 = u then p.1.line.quantity else 0).sum

/-- A lot received: its articles are those of the items sent and of the list, each is added to the line it
    landed on, and its items are deleted. -/
structure Lot.Effect (lot : Lot M U) (landed : List U) (before after : Rows M U) : Prop where
  articles : lot.items.mapM (receivedArticle lot.groceries) = .ok lot.articles
  found : ∀ g ∈ lot.groceries, before.get (.grocery g.id) = some g.row
  landings : landed.length = lot.articles.length
  added : ∀ u, quantityAt after u = quantityAt before u + receivedOn lot.articles landed u
  present : ∀ g ∈ lot.ids, (before.get (.grocery g)).isSome
  deleted : ∀ g, after.get (.grocery g) = if g ∈ lot.ids then none else before.get (.grocery g)

/-- A dish cooked: what was asked is taken, from lines that hold it. -/
structure Dish.Effect (d : Dish M U) (before after : Rows M U) : Prop where
  removals : removalsToApply d.body.removals = .ok d.removals
  others : checkOthers d.body.removals d.body.others = .ok d.others
  taken : ∀ p ∈ d.taken, p.2 ≤ quantityAt before p.1 ∧
    quantityAt after p.1 = quantityAt before p.1 - p.2
  kept : ∀ u, u ∉ d.taken.map Prod.fst → quantityAt after u = quantityAt before u
  groceries : ∀ g, after.get (.grocery g) = before.get (.grocery g)

/-- What an answer says the commit changed. -/
def Answer.Effect (before after : Rows M U) : Answer M U → Prop
  | .created id item => before.get (.stock id) = none ∧ after.get (.stock id) = some (.stock item) ∧
    Only id before after
  | .updated id body item =>
    (∃ existing, before.get (.stock id) = some (.stock existing) ∧ body.item existing = .ok item) ∧
    after.get (.stock id) = some (.stock item) ∧ Only id before after
  | .received lot landed => lot.Effect landed before after
  | .cooked d => d.Effect before after

/-- The grocery items an answer says were received. -/
def Answer.receivedItems : Answer M U → List U
  | .received lot _ => lot.ids
  | _ => []

/-- The grocery items received so far. -/
def receivedItems (log : List (Commit (Key M U) (Row M U) (Answer M U))) : List U :=
  log.flatMap fun c => c.answer.receivedItems

/-! ### What a request has written -/

/-- A lot planned from its items. -/
structure Lot.Planned (lot : Lot M U) : Prop where
  ids : lot.ids.Nodup
  articles : lot.items.mapM (receivedArticle lot.groceries) = .ok lot.articles
  targets : lot.targets.length = lot.articles.length
  groceries : ∀ g ∈ lot.groceries, g.id ∈ lot.ids

/-- A dish whose request is checked. -/
structure Dish.Checked (d : Dish M U) : Prop where
  removals : removalsToApply d.body.removals = .ok d.removals
  others : checkOthers d.body.removals d.body.others = .ok d.others

/-- How far a request is with what it writes; a request to be refused is nowhere. -/
inductive Phase (M U : Type*) where
  | reading
  | creating (item : StockItem M)
  | created (id : U) (item : StockItem M)
  | patching (id : U) (body : UpdateStockItemRequest) (item : StockItem M)
  | updated (id : U) (body : UpdateStockItemRequest) (item : StockItem M)
  | holding (items : List (ReceivedItem U))
  | planning (items : List (ReceivedItem U)) (groceries : List (GroceryLine U))
  | landing (lot : Lot M U) (landed : List U) (rest : List (Article U × Target U))
  | received (lot : Lot M U) (landed : List U)
  | preparing (d : Dish M U)
  | cooking (d : Dish M U) (rest : List (Settled U))

def Pc.phase : Pc M U → Option (Phase M U)
  | .opened _ _ | .reading _ _ _ _ => some .reading
  | .coding _ _ item | .inserting _ item => some (.creating item)
  | .writing id body item => some (.patching id body item)
  | .holding _ _ items => some (.holding items)
  | .planning _ _ items groceries => some (.planning items groceries)
  | .landing lot landed a target rest => some (.landing lot landed ((a, target) :: rest))
  | .clearing lot landed => some (.landing lot landed [])
  | .selecting d | .holdingRecipe d _ | .listing d _ | .reserving d _ _ => some (.preparing d)
  | .taking d _ _ line rest => some (.cooking d (line :: rest))
  | .dating d _ _ | .logging d _ _ _ | .adding d _ _ _ _ | .changing d _ _ _ _ | .stamping d _
  | .closing d _ | .finished (.cooked d) => some (.cooking d [])
  | .finished (.created id item) => some (.created id item)
  | .finished (.updated id body item) => some (.updated id body item)
  | .finished (.received lot landed) => some (.received lot landed)
  | .probing _ | .refused _ | .failed => none

/-- The stock lines held. -/
def Phase.lines : Phase M U → List U
  | .created id _ | .patching id _ _ | .updated id _ _ => [id]
  | .landing _ landed _ | .received _ landed => landed
  | .cooking d _ => d.taken.map Prod.fst
  | _ => []

/-- The grocery items held. -/
def Phase.items : Phase M U → List U
  | .planning items _ => items.map ReceivedItem.groceryItemId
  | .landing lot _ _ | .received lot _ => lot.ids
  | _ => []

/-- The grocery items read. -/
def Phase.groceries : Phase M U → List (GroceryLine U)
  | .planning _ groceries => groceries
  | .landing lot _ _ | .received lot _ => lot.groceries
  | _ => []

/-- What it makes of a grocery item it holds. -/
def Phase.leaves : Phase M U → Row M U → Option (Row M U)
  | .received _ _, _ => none
  | _, row => some row

/-- Ids are told apart by their order. -/
local instance lawfulIds : LawfulBEq U := inferInstance

/-- What a line taken from holds, `before` being what it held: those of `rest` are still to write. -/
def Dish.Kept (d : Dish M U) (rest : List (Settled U)) (u : U) (before now : ℚ) : Prop :=
  (∀ p ∈ d.taken, p.1 = u → p.2 ≤ before ∧ now = if u ∈ rest.map Settled.id then before else before - p.2) ∧
    ∀ line ∈ rest, line.id = u → line.left = before - line.quantity

/-- The line it has written at `u`, `before` being the row in the database. -/
def Phase.Wrote (u : U) (before : Option (Row M U)) (i : StockItem M) : Phase M U → Prop
  | .created _ item => before = none ∧ i = item
  | .patching _ body item => before = some (.stock i) ∧ body.item i = .ok item
  | .updated _ body item =>
    (∃ existing, before = some (.stock existing) ∧ body.item existing = .ok item) ∧ i = item
  | .landing lot landed _ | .received lot landed =>
    i.quantity = quantityOf before + receivedOn lot.articles landed u
  | .cooking d rest => d.Kept rest u (quantityOf before) i.quantity
  | _ => False

def Settled.asked (line : Settled U) : U × ℚ := (line.id, line.quantity)

/-- What is known of the request's data. -/
def Phase.Wf : Phase M U → Prop
  | .creating item => Holdable item.quantity
  | .holding items => (items.map ReceivedItem.groceryItemId).Nodup
  | .planning items groceries => (items.map ReceivedItem.groceryItemId).Nodup ∧
    ∀ g ∈ groceries, g.id ∈ items.map ReceivedItem.groceryItemId
  | .landing lot landed rest => lot.Planned ∧
    ∃ pre, lot.articles.zip lot.targets = pre ++ rest ∧ pre.length = landed.length
  | .received lot landed => lot.Planned ∧ landed.length = lot.articles.length
  | .preparing d => d.Checked
  | .cooking d rest => d.Checked ∧ ∃ pre, d.taken = pre ++ rest.map Settled.asked
  | _ => True

/-- The local invariant, up to the phase `ph`. -/
structure Writing (ph : Phase M U) (rows : Rows M U) (pending : FMap (Key M U) (Option (Row M U))) :
    Prop where
  wf : ph.Wf
  stock : ∀ u o, pending.get (.stock u) = some o → u ∈ ph.lines ∧
    ∃ i, o = some (.stock i) ∧ Holdable i.quantity ∧ ph.Wrote u (rows.get (.stock u)) i
  grocery : ∀ g o, pending.get (.grocery g) = some o → g ∈ ph.items ∧
    ∃ row, rows.get (.grocery g) = some row ∧ o = ph.leaves row ∧
      ∀ line ∈ ph.groceries, line.id = g → row = line.row
  lines : ∀ u ∈ ph.lines, (pending.get (.stock u)).isSome
  items : ∀ g ∈ ph.items, (pending.get (.grocery g)).isSome

/-! ### What is checked of a request -/

section

variable {lot : Lot M U} {d : Dish M U} {sel : Selected U} {toAdd : List NewIngredient}

omit [LinearOrder U] in
/-- A received article adds something, and no more than a line may hold. -/
theorem receivedLine_quantity {item : ReceivedItem U} {g : GroceryLine U} {line : Line}
    (h : receivedLine item g = .ok line) : 0 < line.quantity ∧ line.quantity ≤ MAX_QUANTITY := by
  rw [receivedLine] at h
  split at h
  · exact absurd h (by simp)
  · split at h
    · split at h
      · exact absurd h (by simp)
      · rename_i hmax
        split at h
        · exact absurd h (by simp)
        · rename_i hpos
          obtain rfl := Except.ok.inj h
          exact ⟨not_le.mp hpos, not_lt.mp hmax⟩
    · exact absurd h (by simp)

theorem receivedArticle_quantity {groceries : List (GroceryLine U)} {item : ReceivedItem U}
    {a : Article U} (h : receivedArticle groceries item = .ok a) :
    0 < a.line.quantity ∧ a.line.quantity ≤ MAX_QUANTITY := by
  rw [receivedArticle] at h
  split at h
  · exact absurd h (by simp)
  · rename_i g _
    rcases hline : receivedLine item g with e | line
    · rw [hline] at h
      exact absurd h (by simp [Except.map])
    · rw [hline] at h
      obtain rfl := Except.ok.inj h
      exact receivedLine_quantity hline

theorem Lot.Planned.quantity (h : lot.Planned) {a : Article U} (ha : a ∈ lot.articles) :
    0 < a.line.quantity ∧ a.line.quantity ≤ MAX_QUANTITY := by
  have hall : ∀ (items : List (ReceivedItem U)) (articles : List (Article U)),
      items.mapM (receivedArticle lot.groceries) = .ok articles → ∀ a ∈ articles,
        0 < a.line.quantity ∧ a.line.quantity ≤ MAX_QUANTITY := by
    intro items
    induction items with
    | nil =>
      intro articles h a ha
      obtain rfl := Except.ok.inj h
      exact absurd ha List.not_mem_nil
    | cons item items ih =>
      intro articles h a ha
      rw [List.mapM_cons] at h
      rcases hone : receivedArticle lot.groceries item with e | b
      · rw [hone] at h
        exact absurd h (by simp [bind, Except.bind])
      · rcases hrest : items.mapM (receivedArticle lot.groceries) with e | rest
        · rw [hone, hrest] at h
          exact absurd h (by simp [bind, Except.bind])
        · rw [hone, hrest] at h
          obtain rfl := Except.ok.inj h
          rcases List.mem_cons.mp ha with rfl | ha
          · exact receivedArticle_quantity hone
          · exact ih rest hrest a ha
  exact hall _ _ h.articles a ha

/-- A plan has a target for each article. -/
theorem length_planFrom {lowercase : Text → Text} (articles : List (Article U)) :
    ∀ index candidates created {targets : List (Target U)},
      planFrom lowercase index candidates created articles = .ok targets →
        targets.length = articles.length := by
  induction articles with
  | nil =>
    intro index candidates created targets h
    obtain rfl := Except.ok.inj h
    rfl
  | cons a articles ih =>
    intro index candidates created targets h
    rcases hres : a.resolve lowercase candidates with e | _ | id
    · rw [planFrom_error hres] at h
      exact absurd h (by simp)
    · rw [planFrom_new hres] at h
      rcases hrest : planFrom lowercase (index + 1) (candidates ++ [a.candidate])
        (created ++ [(a.groceryItemId, index)]) articles with e | rest
      · rw [hrest] at h
        exact absurd h (by simp [Except.map])
      · rw [hrest] at h
        obtain rfl := Except.ok.inj h
        simp [ih _ _ _ hrest]
    · rw [planFrom_merge hres] at h
      rcases hrest : planFrom lowercase (index + 1) candidates created articles with e | rest
      · rw [hrest] at h
        exact absurd h (by simp [Except.map])
      · rw [hrest] at h
        obtain rfl := Except.ok.inj h
        simp [ih _ _ _ hrest]

theorem planLot_eq_ok {lowercase : Text → Text} {groceries : List (GroceryLine U)}
    {stock : List (StockCandidate U)} {items : List (ReceivedItem U)} {articles : List (Article U)}
    {targets : List (Target U)} (h : planLot lowercase groceries stock items = .ok (articles, targets)) :
    items.mapM (receivedArticle groceries) = .ok articles ∧ targets.length = articles.length := by
  rw [planLot] at h
  rcases harticles : items.mapM (receivedArticle groceries) with e | found
  · rw [harticles] at h
    exact absurd h (by simp [bind, Except.bind])
  · rcases hplan : plan lowercase found stock with e | planned
    · simp only [harticles, hplan, bind, Except.bind] at h
      exact absurd h (by simp)
    · simp only [harticles, hplan, bind, Except.bind] at h
      obtain ⟨rfl, rfl⟩ := Prod.mk.inj (Except.ok.inj h)
      exact ⟨rfl, length_planFrom _ _ _ _ hplan⟩

/-- The lines taken from: once each, and named in the request. -/
theorem removalsFrom_ids (removals : List (Recipes.Removal U)) :
    ∀ seen {pairs : List (U × ℚ)}, removalsFrom seen removals = .ok pairs →
      (pairs.map Prod.fst).Nodup ∧ ∀ p ∈ pairs, 0 < p.2 ∧ p.1 ∉ seen ∧
        p.1 ∈ removals.map Recipes.Removal.stockItemId := by
  induction removals with
  | nil =>
    intro seen pairs h
    obtain rfl := Except.ok.inj h
    exact ⟨List.nodup_nil, fun p hp => absurd hp List.not_mem_nil⟩
  | cons r removals ih =>
    intro seen pairs h
    rw [removalsFrom] at h
    split at h
    · exact absurd h (by simp)
    · rename_i hseen
      split at h
      · split at h
        · exact absurd h (by simp)
        · rcases hrest : removalsFrom (r.stockItemId :: seen) removals with e | rest
          · rw [hrest] at h
            exact absurd h (by simp [Except.map])
          · rw [hrest] at h
            obtain ⟨hnd, hall⟩ := ih _ hrest
            have hkeep : ∀ p ∈ rest, 0 < p.2 ∧ p.1 ∉ seen ∧
                p.1 ∈ (r :: removals).map Recipes.Removal.stockItemId := fun p hp => by
              obtain ⟨hpos, hnot, hmem⟩ := hall p hp
              exact ⟨hpos, fun hs => hnot (List.mem_cons_of_mem _ hs), List.mem_cons_of_mem _ hmem⟩
            obtain rfl := Except.ok.inj h
            split
            · rename_i hq
              refine ⟨List.nodup_cons.mpr ⟨fun hmem => ?_, hnd⟩, fun p hp => ?_⟩
              · obtain ⟨p, hp, heq⟩ := List.mem_map.mp hmem
                exact (hall p hp).2.1 (heq ▸ List.mem_cons_self)
              · rcases List.mem_cons.mp hp with rfl | hp
                · exact ⟨hq.2, hseen, List.mem_cons_self⟩
                · exact hkeep p hp
            · exact ⟨hnd, hkeep⟩
      · exact absurd h (by simp)

theorem othersFrom_ids (others : List (Recipes.OtherRemoval U)) :
    ∀ seen {pairs : List (U × ℚ)}, othersFrom seen others = .ok pairs →
      (pairs.map Prod.fst).Nodup ∧ ∀ p ∈ pairs, 0 < p.2 ∧ p.1 ∉ seen := by
  induction others with
  | nil =>
    intro seen pairs h
    obtain rfl := Except.ok.inj h
    exact ⟨List.nodup_nil, fun p hp => absurd hp List.not_mem_nil⟩
  | cons o others ih =>
    intro seen pairs h
    rw [othersFrom] at h
    split at h
    · exact absurd h (by simp)
    · rename_i hseen
      split at h
      · split at h
        · exact absurd h (by simp)
        · rename_i hq
          rcases hrest : othersFrom (o.stockItemId :: seen) others with e | rest
          · rw [hrest] at h
            exact absurd h (by simp [Except.map])
          · rw [hrest] at h
            obtain ⟨hnd, hall⟩ := ih _ hrest
            obtain rfl := Except.ok.inj h
            refine ⟨List.nodup_cons.mpr ⟨fun hmem => ?_, hnd⟩, fun p hp => ?_⟩
            · obtain ⟨p, hp, heq⟩ := List.mem_map.mp hmem
              exact (hall p hp).2 (heq ▸ List.mem_cons_self)
            · rcases List.mem_cons.mp hp with rfl | hp
              · exact ⟨not_le.mp hq, hseen⟩
              · obtain ⟨hpos, hnot⟩ := hall p hp
                exact ⟨hpos, fun hs => hnot (List.mem_cons_of_mem _ hs)⟩
      · exact absurd h (by simp)

/-- A dish takes something from each line it names, and names each once. -/
theorem Dish.Checked.taken (h : d.Checked) :
    (d.taken.map Prod.fst).Nodup ∧ ∀ p ∈ d.taken, 0 < p.2 := by
  obtain ⟨hrnd, hrall⟩ := removalsFrom_ids _ _ h.removals
  obtain ⟨hond, hoall⟩ := othersFrom_ids _ _ h.others
  rw [Dish.taken, List.map_append]
  refine ⟨List.nodup_append.mpr ⟨hrnd, hond, fun u hu v hv heq => ?_⟩, fun p hp => ?_⟩
  · obtain ⟨p, hp, rfl⟩ := List.mem_map.mp hu
    obtain ⟨q, hq, rfl⟩ := List.mem_map.mp hv
    exact (hoall q hq).2 (heq ▸ (hrall p hp).2.2)
  · rcases List.mem_append.mp hp with hp | hp
    · exact (hrall p hp).1
    · exact (hoall p hp).1

/-- What each line keeps, once all hold enough. -/
theorem settle_eq_ok {locked : List (U × StockItem M)} (pairs : List (U × ℚ)) :
    ∀ {lines : List (Settled U)}, settle (fun q => q) locked pairs = .ok lines →
      lines.map Settled.asked = pairs ∧ ∀ line ∈ lines, ∃ i, (line.id, i) ∈ locked ∧
        line.quantity ≤ i.quantity ∧ line.left = i.quantity - line.quantity := by
  induction pairs with
  | nil =>
    intro lines h
    obtain rfl := Except.ok.inj h
    exact ⟨rfl, fun line hline => absurd hline List.not_mem_nil⟩
  | cons p pairs ih =>
    intro lines h
    rw [settle] at h
    split at h
    · exact absurd h (by simp)
    · rename_i id i hfind
      obtain rfl : id = p.1 := by simpa using List.find?_some hfind
      split at h
      · exact absurd h (by simp)
      · rename_i left hleft
        rcases hrest : settle (fun q => q) locked pairs with e | rest
        · rw [hrest] at h
          exact absurd h (by simp [Except.map])
        · rw [hrest] at h
          obtain ⟨hmap, hall⟩ := ih hrest
          obtain rfl := Except.ok.inj h
          refine ⟨by rw [List.map_cons, hmap]; rfl, fun line hline => ?_⟩
          rcases List.mem_cons.mp hline with rfl | hline
          · rw [remainingAfter] at hleft
            split at hleft
            · rename_i hle
              refine ⟨i, List.mem_of_find?_eq_some hfind, hle, ?_⟩
              rw [← Option.some.inj hleft]
              exact max_eq_left (sub_nonneg.mpr hle)
            · exact absurd hleft (by simp)
          · exact hall line hline

/-! ### Where a request goes -/

omit [LinearOrder U] in
theorem phase_next (lot : Lot M U) (landed : List U) (rest : List (Article U × Target U)) :
    (lot.next landed rest).phase = some (.landing lot landed rest) := by
  rcases rest with _ | ⟨⟨a, target⟩, rest⟩ <;> rfl

omit [LinearOrder U] in
theorem phase_take (lines : List (Settled U)) : (d.take sel toAdd lines).phase = some (.cooking d lines) := by
  rcases lines with _ | ⟨line, lines⟩ <;> rfl

omit [LinearOrder U] in
theorem phase_stamp (added : ℕ) : (d.stamp sel added).phase = some (.cooking d []) := by
  rw [Dish.stamp]
  split <;> rfl

omit [LinearOrder U] in
theorem phase_change (added : ℕ) (updates : List (Recipes.RecipeUpdate U)) :
    (d.change sel added updates).phase = some (.cooking d []) := by
  rcases updates with _ | ⟨update, updates⟩
  · exact phase_stamp added
  · rfl

omit [LinearOrder U] in
theorem phase_add (added : ℕ) : (d.add sel added toAdd).phase = some (.cooking d []) := by
  rcases toAdd with _ | ⟨ing, toAdd⟩
  · exact phase_change added _
  · rfl

/-! ### What lands on a line -/

theorem receivedOn_of_notMem {articles : List (Article U)} {landed : List U} {u : U} (h : u ∉ landed) :
    receivedOn articles landed u = 0 := by
  refine List.sum_eq_zero fun q hq => ?_
  obtain ⟨p, hp, rfl⟩ := List.mem_map.mp hq
  refine if_neg fun heq => h ?_
  exact heq ▸ (List.of_mem_zip hp).2

/-- One more article lands. -/
theorem receivedOn_concat {pre rest : List (Article U)} {a : Article U} {landed : List U} {id u : U}
    (h : pre.length = landed.length) :
    receivedOn (pre ++ a :: rest) (landed ++ [id]) u =
      receivedOn (pre ++ a :: rest) landed u + if id = u then a.line.quantity else 0 := by
  have hshort : (pre ++ a :: rest).zip landed = pre.zip landed := by
    conv_lhs => rw [← List.append_nil landed]
    rw [List.zip_append h, List.zip_nil_right, List.append_nil]
  rw [receivedOn, receivedOn, hshort, List.zip_append h, List.map_append, List.sum_append]
  simp

end

/-! ### One phase to the next -/

section

variable {ph ph' : Phase M U} {rows rows' : Rows M U} {pending pending' : FMap (Key M U) (Option (Row M U))}

theorem Writing.of_rows (h : Writing ph rows pending)
    (hsame : ∀ k o, pending.get k = some o → rows'.get k = rows.get k) : Writing ph rows' pending where
  wf := h.wf
  stock := fun u o ho => by
    rw [hsame _ _ ho]
    exact h.stock u o ho
  grocery := fun g o ho => by
    rw [hsame _ _ ho]
    exact h.grocery g o ho
  lines := h.lines
  items := h.items

/-- Nothing written on the stock nor on the grocery list. -/
theorem Writing.elsewhere (h : Writing ph rows pending)
    (hstock : ∀ u, pending'.get (.stock u) = pending.get (.stock u))
    (hgrocery : ∀ g, pending'.get (.grocery g) = pending.get (.grocery g)) : Writing ph rows pending' where
  wf := h.wf
  stock := fun u o ho => h.stock u o (hstock u ▸ ho)
  grocery := fun g o ho => h.grocery g o (hgrocery g ▸ ho)
  lines := fun u hu => by
    rw [hstock u]
    exact h.lines u hu
  items := fun g hg => by
    rw [hgrocery g]
    exact h.items g hg

/-- Two phases that hold the same, the second knowing no more of what is written. -/
structure Phase.Follows (ph ph' : Phase M U) : Prop where
  lines : ph'.lines = ph.lines
  items : ph'.items = ph.items
  groceries : ph'.groceries = ph.groceries
  leaves : ∀ row, ph'.leaves row = ph.leaves row
  wrote : ∀ u before i, ph.Wrote u before i → ph'.Wrote u before i

theorem Writing.follow (h : Writing ph rows pending) (hf : ph.Follows ph') (hwf : ph'.Wf) :
    Writing ph' rows pending where
  wf := hwf
  stock := fun u o ho => by
    obtain ⟨hmem, i, hi, hhold, hwrote⟩ := h.stock u o ho
    exact ⟨hf.lines ▸ hmem, i, hi, hhold, hf.wrote _ _ _ hwrote⟩
  grocery := fun g o ho => by
    rw [hf.items, hf.groceries]
    obtain ⟨hmem, row, hrow, hleaves, hline⟩ := h.grocery g o ho
    exact ⟨hmem, row, hrow, (hf.leaves row).symm ▸ hleaves, hline⟩
  lines := fun u hu => h.lines u (hf.lines ▸ hu)
  items := fun g hg => h.items g (hf.items ▸ hg)

theorem Writing.pending_stock (h : Writing ph rows pending) {u : U} (hu : u ∉ ph.lines) :
    pending.get (.stock u) = none := by
  rcases hp : pending.get (.stock u) with _ | o
  · rfl
  · exact absurd (h.stock u o hp).1 hu

theorem Writing.pending_grocery (h : Writing ph rows pending) {g : U} (hg : g ∉ ph.items) :
    pending.get (.grocery g) = none := by
  rcases hp : pending.get (.grocery g) with _ | o
  · rfl
  · exact absurd (h.grocery g o hp).1 hg

variable [DecidableEq M]

/-- A line not held is seen as it is. -/
theorem Writing.visible_stock (h : Writing ph rows pending) {u : U} (hu : u ∉ ph.lines) :
    (rows.patch pending).get (.stock u) = rows.get (.stock u) := by
  rw [FMap.get_patch, h.pending_stock hu]
  rfl

/-- A line held is seen as it is written. -/
theorem Writing.written (h : Writing ph rows pending) {u : U} (hu : u ∈ ph.lines) :
    ∃ i, pending.get (.stock u) = some (some (.stock i)) ∧
      (rows.patch pending).get (.stock u) = some (.stock i) ∧
      ph.Wrote u (rows.get (.stock u)) i := by
  obtain ⟨o, ho⟩ := Option.isSome_iff_exists.mp (h.lines u hu)
  obtain ⟨_, i, rfl, _, hwrote⟩ := h.stock u o ho
  refine ⟨i, ho, ?_, hwrote⟩
  rw [FMap.get_patch, ho]
  rfl

/-- What is written stays in bounds. -/
theorem Writing.inBounds (h : Writing ph rows pending) (hrows : InBounds rows) :
    InBounds (rows.patch pending) := by
  intro u row hrow
  rw [FMap.get_patch] at hrow
  rcases hp : pending.get (.stock u) with _ | o
  · rw [hp] at hrow
    exact hrows u row hrow
  · obtain ⟨_, i, rfl, hhold, _⟩ := h.stock u o hp
    rw [hp] at hrow
    obtain rfl := Option.some.inj hrow
    exact ⟨i, rfl, hhold⟩

/-- STEP: one line written. -/
theorem Writing.put (h : Writing ph rows pending) {id : U} {i : StockItem M} (hhold : Holdable i.quantity)
    (hwf : ph'.Wf) (hlines : ∀ u, u ∈ ph'.lines ↔ u = id ∨ u ∈ ph.lines) (hitems : ph'.items = ph.items)
    (hgroceries : ph'.groceries = ph.groceries) (hleaves : ∀ row, ph'.leaves row = ph.leaves row)
    (hself : ph'.Wrote id (rows.get (.stock id)) i)
    (hother : ∀ u j, u ∈ ph.lines → u ≠ id → ph.Wrote u (rows.get (.stock u)) j →
      ph'.Wrote u (rows.get (.stock u)) j) :
    Writing ph' rows (pending.merge (FMap.one (.stock id) (some (.stock i)))) where
  wf := hwf
  stock := fun u o ho => by
    rw [FMap.get_merge, FMap.get_one] at ho
    by_cases hu : u = id
    · subst hu
      rw [if_pos rfl] at ho
      exact ⟨(hlines u).mpr (Or.inl rfl), i, (Option.some.inj ho).symm, hhold, hself⟩
    · rw [if_neg fun he => hu (Key.stock.inj he)] at ho
      obtain ⟨hmem, j, hj, hholdj, hwrote⟩ := h.stock u o ho
      exact ⟨(hlines u).mpr (Or.inr hmem), j, hj, hholdj, hother u j hmem hu hwrote⟩
  grocery := fun g o ho => by
    rw [FMap.get_merge, FMap.get_one, if_neg (by simp)] at ho
    obtain ⟨hmem, row, hrow, ho, hline⟩ := h.grocery g o ho
    rw [hitems, hgroceries]
    exact ⟨hmem, row, hrow, (hleaves row).symm ▸ ho, hline⟩
  lines := fun u hu => by
    rw [FMap.get_merge, FMap.get_one]
    rcases (hlines u).mp hu with rfl | hu
    · rw [if_pos rfl]
      rfl
    · split
      · rfl
      · exact h.lines u hu
  items := fun g hg => by
    rw [FMap.get_merge, FMap.get_one, if_neg (by simp)]
    exact h.items g (hitems ▸ hg)

end

/-! ### One statement -/

section

variable [DecidableEq M] {lowercase : Text → Text} {parisDay : ℤ → ℤ}
  {s : Shared (Key M U) (Row M U) (Answer M U)} {t t' : Tx (Key M U) (Row M U) Text (Pc M U)}
  {ph ph' : Phase M U} {rows : Rows M U} {pending : FMap (Key M U) (Option (Row M U))}

/-- Nothing held of the stock nor of the grocery list. -/
structure Phase.Bare (ph : Phase M U) : Prop where
  lines : ph.lines = []
  items : ph.items = []
  groceries : ph.groceries = []

omit [DecidableEq M] in
/-- From nothing written to nothing written. -/
theorem Writing.bare (h : Writing ph rows pending) (hb : ph.Bare) (hb' : ph'.Bare) (hwf : ph'.Wf) :
    Writing ph' rows pending where
  wf := hwf
  stock := fun u o ho => absurd (h.stock u o ho).1 (by rw [hb.lines]; exact List.not_mem_nil)
  grocery := fun g o ho => absurd (h.grocery g o ho).1 (by rw [hb.items]; exact List.not_mem_nil)
  lines := fun u hu => absurd hu (by rw [hb'.lines]; exact List.not_mem_nil)
  items := fun g hg => absurd hg (by rw [hb'.items]; exact List.not_mem_nil)

omit [DecidableEq M] in
/-- Where a request begins, it holds nothing. -/
theorem phase_begin {draws : Draws U} {role : Except AppError Groups.Role} {r : Request M U}
    (h : (r.begin draws role).phase = some ph') : ph'.Bare ∧ ph'.Wf := by
  cases r with
  | create actor body =>
    rw [Request.begin.eq_def] at h
    dsimp only at h
    split at h
    · rename_i item _ _ hitem
      have hhold := (CreateStockItemRequest.quantity_of_item hitem).2
      split at h
      · obtain rfl := Option.some.inj h
        exact ⟨⟨rfl, rfl, rfl⟩, hhold⟩
      · obtain rfl := Option.some.inj h
        exact ⟨⟨rfl, rfl, rfl⟩, hhold⟩
    · exact absurd h (by simp [Pc.phase])
    · exact absurd h (by simp [Pc.phase])
  | update actor id body =>
    rw [Request.begin.eq_def] at h
    dsimp only at h
    split at h
    · obtain rfl := Option.some.inj h
      exact ⟨⟨rfl, rfl, rfl⟩, trivial⟩
    · exact absurd h (by simp [Pc.phase])
  | receive actor items =>
    rw [Request.begin.eq_def] at h
    dsimp only at h
    split at h
    · rename_i hlot
      obtain rfl := Option.some.inj h
      refine ⟨⟨rfl, rfl, rfl⟩, ?_⟩
      rw [checkLot] at hlot
      split at hlot
      · exact absurd hlot (by simp)
      · split at hlot
        · exact absurd hlot (by simp)
        · rename_i hnd
          exact not_not.mp hnd
    · exact absurd h (by simp [Pc.phase])
    · exact absurd h (by simp [Pc.phase])
  | done actor recipe body =>
    rw [Request.begin.eq_def] at h
    dsimp only at h
    split at h
    · rename_i hremovals hothers _
      obtain rfl := Option.some.inj h
      exact ⟨⟨rfl, rfl, rfl⟩, hremovals, hothers⟩
    all_goals exact absurd h (by simp [Pc.phase])

theorem phase_select {d : Dish M U} (h : (d.select rows).phase = some ph') : ph' = .preparing d := by
  rw [Dish.select] at h
  split at h
  · exact absurd h (by simp [Pc.phase])
  · split at h
    · dsimp only at h
      split at h
      · exact absurd h (by simp [Pc.phase])
      · split at h
        · exact (Option.some.inj h).symm
        · exact (Option.some.inj h).symm
    · exact absurd h (by simp [Pc.phase])

omit [DecidableEq M] in
theorem mem_stockOf {order : Listing U} {ids : List U} {p : U × StockItem M}
    (h : p ∈ stockOf order ids rows) : rows.get (.stock p.1) = some (.stock p.2) := by
  obtain ⟨id, _, hp⟩ := List.mem_filterMap.mp h
  split at hp
  · rename_i i hrow
    obtain rfl := Option.some.inj hp
    exact hrow
  · exact absurd hp (by simp)

omit [DecidableEq M] in
/-- With as many items read as asked, each is there. -/
theorem groceriesOf_all {order : Listing U} {ids : List U}
    (h : (groceriesOf order ids rows).length = ids.length) :
    (∀ g ∈ ids, (rows.get (.grocery g)).isSome) ∧
      ∀ g ∈ groceriesOf order ids rows, g.id ∈ ids ∧ rows.get (.grocery g.id) = some g.row := by
  have hlen : (order.list ids.toFinset).length ≤ ids.length := by
    rw [← List.toFinset_card_of_nodup (order.nodup _)]
    have hset : (order.list ids.toFinset).toFinset = ids.toFinset := by
      ext g
      rw [List.mem_toFinset, order.mem_list]
    rw [hset]
    exact List.toFinset_card_le ids
  refine ⟨fun g hg => ?_, fun g hg => ?_⟩
  · rw [groceriesOf] at h
    have hall := List.filterMap_length_eq_length.mp (le_antisymm (List.length_filterMap_le _ _)
      (hlen.trans h.ge))
    have hone := hall g ((order.mem_list _ _).mpr (List.mem_toFinset.mpr hg))
    rcases hrow : rows.get (.grocery g) with _ | row
    · rw [hrow] at hone
      exact absurd hone (by simp)
    · rfl
  · obtain ⟨id, hid, hline⟩ := List.mem_filterMap.mp hg
    split at hline
    · rename_i row hrow
      obtain rfl := Option.some.inj hline
      exact ⟨List.mem_toFinset.mp ((order.mem_list _ _).mp hid), hrow⟩
    · exact absurd hline (by simp)

/-- The grocery items held, and read. -/
theorem Writing.hold {items : List (ReceivedItem U)} {draws : Draws U}
    (h : Writing (.holding items) rows pending)
    (hall : (groceriesOf draws.order (items.map ReceivedItem.groceryItemId) (rows.patch pending)).length =
      (items.map ReceivedItem.groceryItemId).length) :
    Writing (.planning items
        (groceriesOf draws.order (items.map ReceivedItem.groceryItemId) (rows.patch pending))) rows
      (pending.merge (FMap.touch (fun k _ => match k with
        | .grocery g => g ∈ items.map ReceivedItem.groceryItemId
        | _ => false) (rows.patch pending))) := by
  have hseen : ∀ g, (rows.patch pending).get (.grocery g) = rows.get (.grocery g) := fun g => by
    rw [FMap.get_patch, h.pending_grocery List.not_mem_nil]
    rfl
  obtain ⟨hthere, hread⟩ := groceriesOf_all hall
  refine ⟨⟨h.wf, fun g hg => (hread g hg).1⟩, fun u o ho => ?_, fun g o ho => ?_,
    fun u hu => absurd hu List.not_mem_nil, fun g hg => ?_⟩
  · rw [FMap.get_merge, FMap.touch, FMap.updateWhere, FMap.get_filterMap,
      h.pending_stock List.not_mem_nil, Option.or_none] at ho
    obtain ⟨row, _, hrow⟩ := Option.bind_eq_some_iff.mp ho
    exact absurd hrow (by simp)
  · rw [FMap.get_merge, h.pending_grocery List.not_mem_nil, Option.or_none] at ho
    obtain ⟨row, hrow, hmem, rfl⟩ := FMap.get_touch.mp ho
    refine ⟨of_decide_eq_true hmem, row, hseen g ▸ hrow, rfl, fun line hline hg => ?_⟩
    have hline := (hread line hline).2
    rw [hg, hrow] at hline
    exact Option.some.inj hline
  · obtain ⟨row, hrow⟩ := Option.isSome_iff_exists.mp (hthere g hg)
    have htouch : (FMap.touch (fun k _ => match k with
        | .grocery g => g ∈ items.map ReceivedItem.groceryItemId
        | _ => false) (rows.patch pending)).get (.grocery g) = some (some row) :=
      FMap.get_touch.mpr ⟨row, hrow, decide_eq_true hg, rfl⟩
    rw [FMap.get_merge, htouch]
    rfl

/-- The items received, deleted. -/
theorem Writing.clear {lot : Lot M U} {landed : List U} (h : Writing (.landing lot landed []) rows pending) :
    Writing (.received lot landed) rows
      (pending.merge (FMap.deleteWhere (fun k _ => match k with
        | .grocery g => g ∈ lot.ids
        | _ => false) (rows.patch pending))) := by
  obtain ⟨hplanned, pre, hpre, hlen⟩ := h.wf
  have hlanded : landed.length = lot.articles.length := by
    rw [← hlen, ← List.append_nil pre, ← hpre, List.length_zip, hplanned.targets, min_self]
  have hstock : ∀ u, (FMap.deleteWhere (fun k _ => match k with
      | .grocery g => g ∈ lot.ids
      | _ => false) (rows.patch pending)).get (.stock u) = none := fun u => by
    rcases hd : (FMap.deleteWhere (fun k _ => match k with
      | .grocery g => g ∈ lot.ids
      | _ => false) (rows.patch pending)).get (.stock u) with _ | o
    · exact hd
    · obtain ⟨_, _, _, hno⟩ := FMap.get_deleteWhere.mp hd
      exact absurd hno (by simp)
  have hgrocery : ∀ g ∈ lot.ids, (FMap.deleteWhere (fun k _ => match k with
      | .grocery g => g ∈ lot.ids
      | _ => false) (rows.patch pending)).get (.grocery g) = some none := fun g hg => by
    obtain ⟨o, ho⟩ := Option.isSome_iff_exists.mp (h.items g hg)
    obtain ⟨_, row, _, rfl, _⟩ := h.grocery g o ho
    refine FMap.get_deleteWhere.mpr ⟨rfl, row, ?_, decide_eq_true hg⟩
    rw [FMap.get_patch, ho]
    rfl
  refine ⟨⟨hplanned, hlanded⟩, fun u o ho => ?_, fun g o ho => ?_, fun u hu => ?_, fun g hg => ?_⟩
  · rw [FMap.get_merge, hstock, Option.none_or] at ho
    exact h.stock u o ho
  · by_cases hg : g ∈ lot.ids
    · rw [FMap.get_merge, hgrocery g hg, Option.some_or] at ho
      obtain ⟨o', ho'⟩ := Option.isSome_iff_exists.mp (h.items g hg)
      obtain ⟨_, row, hrow, _, hline⟩ := h.grocery g o' ho'
      exact ⟨hg, row, hrow, (Option.some.inj ho).symm, hline⟩
    · rw [FMap.get_merge, h.pending_grocery hg, Option.or_none] at ho
      obtain ⟨_, _, _, hmem⟩ := FMap.get_deleteWhere.mp ho
      exact absurd (of_decide_eq_true hmem) hg
  · rw [FMap.get_merge, hstock, Option.none_or]
    exact h.lines u hu
  · rw [FMap.get_merge, hgrocery g hg]
    rfl

/-- A line seen while a lot lands: what it was, and what landed on it. -/
theorem Writing.landing_visible {lot : Lot M U} {landed : List U} {rest : List (Article U × Target U)}
    (h : Writing (.landing lot landed rest) rows pending) {id : U} {i : StockItem M}
    (hi : (rows.patch pending).get (.stock id) = some (.stock i)) :
    i.quantity = quantityOf (rows.get (.stock id)) + receivedOn lot.articles landed id := by
  by_cases hid : id ∈ landed
  · obtain ⟨j, _, hj, hwrote⟩ := h.written (u := id) hid
    obtain rfl := Row.stock.inj (Option.some.inj (hj.symm.trans hi))
    exact hwrote
  · rw [h.visible_stock hid] at hi
    rw [hi, receivedOn_of_notMem hid, add_zero]
    rfl

/-- STEP: one article lands. -/
theorem Writing.land {lot : Lot M U} {landed : List U} {a : Article U} {target : Target U}
    {rest : List (Article U × Target U)}
    (h : Writing (.landing lot landed ((a, target) :: rest)) rows pending) {id : U} {i : StockItem M}
    (hhold : Holdable i.quantity)
    (hi : i.quantity = quantityOf (rows.get (.stock id)) + receivedOn lot.articles landed id +
      a.line.quantity) :
    Writing (.landing lot (landed ++ [id]) rest) rows
      (pending.merge (FMap.one (.stock id) (some (.stock i)))) := by
  obtain ⟨hplanned, pre, hpre, hlen⟩ := h.wf
  have harticles : lot.articles = pre.map Prod.fst ++ a :: rest.map Prod.fst := by
    have hzip : (lot.articles.zip lot.targets).map Prod.fst = lot.articles := List.map_fst_zip hplanned.targets.ge
    rw [← hzip, hpre, List.map_append, List.map_cons]
  have hon : ∀ u, receivedOn lot.articles (landed ++ [id]) u =
      receivedOn lot.articles landed u + if id = u then a.line.quantity else 0 := fun u => by
    rw [harticles]
    exact receivedOn_concat (by rw [List.length_map, hlen])
  refine h.put hhold ⟨hplanned, pre ++ [(a, target)], by rw [hpre]; simp, by simp [hlen]⟩ (fun u => ?_) rfl
    rfl (fun _ => rfl) ?_ fun u j _ hu hwrote => ?_
  · rw [Phase.lines, Phase.lines, List.mem_append, List.mem_singleton]
    exact or_comm
  · rw [Phase.Wrote, hon, if_pos rfl, ← add_assoc]
    exact hi
  · rw [Phase.Wrote, hon, if_neg (Ne.symm hu), add_zero]
    exact hwrote

omit [DecidableEq M] in
/-- The article in hand adds something, and no more than a line may hold. -/
theorem Writing.article {lot : Lot M U} {landed : List U} {a : Article U} {target : Target U}
    {rest : List (Article U × Target U)}
    (h : Writing (.landing lot landed ((a, target) :: rest)) rows pending) :
    0 < a.line.quantity ∧ a.line.quantity ≤ MAX_QUANTITY := by
  obtain ⟨hplanned, pre, hpre, _⟩ := h.wf
  have hmem : (a, target) ∈ lot.articles.zip lot.targets := by
    rw [hpre]
    exact List.mem_append_right _ List.mem_cons_self
  exact hplanned.quantity (List.of_mem_zip hmem).1

/-- STEP: the lines a dish takes from, held. -/
theorem Writing.reserve {d : Dish M U} (h : Writing (.preparing d) rows pending) (hrows : InBounds rows)
    {remaining : List (Settled U)}
    (hsettle : settle (fun q => q) (stockOf d.draws.order (d.taken.map Prod.fst) (rows.patch pending)) d.taken =
      .ok remaining) :
    Writing (.cooking d remaining) rows
      (pending.merge (FMap.touch (fun k _ => match k with
        | .stock id => id ∈ d.taken.map Prod.fst
        | _ => false) (rows.patch pending))) := by
  obtain ⟨hmap, hall⟩ := settle_eq_ok _ hsettle
  have hseen : ∀ u, (rows.patch pending).get (.stock u) = rows.get (.stock u) := fun u =>
    h.visible_stock List.not_mem_nil
  have hlocked : ∀ line ∈ remaining, ∃ i, rows.get (.stock line.id) = some (.stock i) ∧
      line.quantity ≤ i.quantity ∧ line.left = i.quantity - line.quantity := fun line hline => by
    obtain ⟨i, hi, hle, hleft⟩ := hall line hline
    exact ⟨i, hseen _ ▸ mem_stockOf hi, hle, hleft⟩
  have hids : d.taken.map Prod.fst = remaining.map Settled.id := by
    rw [← hmap, List.map_map]
    rfl
  refine ⟨⟨h.wf, [], hmap.symm⟩, fun u o ho => ?_, fun g o ho => ?_, fun u hu => ?_,
    fun g hg => absurd hg List.not_mem_nil⟩
  · rw [FMap.get_merge, h.pending_stock List.not_mem_nil, Option.or_none] at ho
    obtain ⟨row, hrow, hmem, rfl⟩ := FMap.get_touch.mp ho
    have hmem : u ∈ d.taken.map Prod.fst := of_decide_eq_true hmem
    rw [hseen] at hrow
    obtain ⟨i, rfl, hhold⟩ := hrows u row hrow
    refine ⟨hmem, i, rfl, hhold, ?_⟩
    rw [hrow]
    refine ⟨fun p hp hpu => ?_, fun line hline hlu => ?_⟩
    · rw [← hmap] at hp
      obtain ⟨line, hline, rfl⟩ := List.mem_map.mp hp
      obtain ⟨j, hj, hle, _⟩ := hlocked line hline
      rw [show line.id = u from hpu, hrow] at hj
      obtain rfl := Row.stock.inj (Option.some.inj hj)
      exact ⟨hle, (if_pos (hids ▸ hmem)).symm⟩
    · obtain ⟨j, hj, _, hleft⟩ := hlocked line hline
      rw [hlu, hrow] at hj
      obtain rfl := Row.stock.inj (Option.some.inj hj)
      exact hleft
  · rw [FMap.get_merge, h.pending_grocery List.not_mem_nil, Option.or_none] at ho
    obtain ⟨_, _, hno, _⟩ := FMap.get_touch.mp ho
    exact absurd hno (by simp)
  · have hu : u ∈ d.taken.map Prod.fst := hu
    rw [hids] at hu
    obtain ⟨line, hline, rfl⟩ := List.mem_map.mp hu
    obtain ⟨i, hi, _⟩ := hlocked line hline
    have htouch : (FMap.touch (fun k _ => match k with
        | .stock id => id ∈ d.taken.map Prod.fst
        | _ => false) (rows.patch pending)).get (.stock line.id) = some (some (.stock i)) :=
      FMap.get_touch.mpr ⟨_, (hseen _).trans hi, decide_eq_true (hids ▸ hu), rfl⟩
    rw [FMap.get_merge, htouch]
    rfl

/-- STEP: one line taken from. -/
theorem Writing.takeOne {d : Dish M U} {line : Settled U} {rest : List (Settled U)}
    (h : Writing (.cooking d (line :: rest)) rows pending) :
    ∃ i, (rows.patch pending).get (.stock line.id) = some (.stock i) ∧
      Writing (.cooking d rest) rows
        (pending.merge (FMap.one (.stock line.id) (some (.stock { i with quantity := line.left })))) := by
  obtain ⟨hchecked, pre, hpre⟩ := h.wf
  obtain ⟨hnd, hpos⟩ := hchecked.taken
  have hasked : line.asked ∈ d.taken := by
    rw [hpre]
    exact List.mem_append_right _ List.mem_cons_self
  have hid : line.id ∈ d.taken.map Prod.fst := List.mem_map_of_mem hasked
  have hrest : line.id ∉ rest.map Settled.id := by
    rw [hpre, List.map_append, List.map_map, List.map_cons] at hnd
    have hcons := (List.nodup_append.mp hnd).2.1
    exact (List.nodup_cons.mp hcons).1
  obtain ⟨i, hpending, hseen, hkept, hleft⟩ := h.written (u := line.id) hid
  obtain ⟨_, j, hj, hhold, _⟩ := h.stock _ _ hpending
  obtain rfl := Row.stock.inj (Option.some.inj hj)
  obtain ⟨hle, hnow⟩ := hkept _ hasked rfl
  rw [if_pos (List.mem_map_of_mem List.mem_cons_self)] at hnow
  have hleft := hleft line List.mem_cons_self rfl
  have hle : line.quantity ≤ quantityOf (rows.get (.stock line.id)) := hle
  have hquantity : 0 < line.quantity := hpos _ hasked
  refine ⟨i, hseen, h.put ⟨?_, ?_⟩ ⟨hchecked, pre ++ [line.asked], by rw [hpre]; simp⟩ (fun u => ?_) rfl rfl
    (fun _ => rfl) ⟨fun p hp hpu => ?_, fun line' hline' hlu => ?_⟩ fun u j _ hu hwrote => ⟨fun p hp hpu => ?_,
      fun line' hline' => hwrote.2 line' (List.mem_cons_of_mem _ hline')⟩⟩
  · show 0 ≤ line.left
    rw [hleft]
    exact sub_nonneg.mpr hle
  · show line.left ≤ MAX_QUANTITY
    rw [hleft, ← hnow]
    exact (sub_le_self _ hquantity.le).trans hhold.2
  · constructor
    · exact Or.inr
    · rintro (rfl | hu)
      · exact hid
      · exact hu
  · obtain rfl : p = line.asked := List.inj_on_of_nodup_map hnd hp hasked hpu
    exact ⟨hle, by rw [if_neg hrest]; exact hleft⟩
  · exact absurd (hlu ▸ List.mem_map_of_mem hline') hrest
  · obtain ⟨hle, hnow⟩ := hwrote.1 p hp hpu
    refine ⟨hle, ?_⟩
    rw [hnow, List.map_cons]
    by_cases hmem : u ∈ rest.map Settled.id
    · rw [if_pos hmem, if_pos (List.mem_cons_of_mem _ hmem)]
    · rw [if_neg hmem, if_neg fun hc => (List.mem_cons.mp hc).elim hu hmem]

omit [DecidableEq M] in
theorem phase_reserve {d : Dish M U} {sel : Selected U} {names : List Text}
    (h : (d.reserve lowercase (fun q => q) sel names rows).phase = some ph') : ∃ remaining,
      settle (fun q => q) (stockOf d.draws.order (d.taken.map Prod.fst) rows) d.taken = .ok remaining ∧
        ph' = .cooking d remaining := by
  rw [Dish.reserve] at h
  extract_lets used toAdd at h
  clear_value toAdd
  split at h
  · exact absurd h (by simp [Pc.phase])
  · split at h
    · exact absurd h (by simp [Pc.phase])
    · split at h
      · exact absurd h (by simp [Pc.phase])
      · split at h
        · exact absurd h (by simp [Pc.phase])
        · rename_i remaining hsettle
          rw [phase_take] at h
          exact ⟨remaining, hsettle, (Option.some.inj h).symm⟩

/-- Writes of other rows. -/
theorem Writing.apart (h : Writing ph rows pending) {change : FMap (Key M U) (Option (Row M U))}
    (hstock : ∀ u, change.get (.stock u) = none) (hgrocery : ∀ g, change.get (.grocery g) = none) :
    Writing ph rows (pending.merge change) :=
  h.elsewhere (fun u => by rw [FMap.get_merge, hstock, Option.none_or]) fun g => by
    rw [FMap.get_merge, hgrocery, Option.none_or]

/-- The local invariant: a request that is not to be refused has written what its phase says. -/
def Kept (s : Shared (Key M U) (Row M U) (Answer M U)) (t : Tx (Key M U) (Row M U) Text (Pc M U)) : Prop :=
  ∀ ph, t.at_.phase = some ph → Writing ph s.rows t.pending

omit [LinearOrder U] [DecidableEq M] in
theorem get_updateWhere_eq_none {p : Key M U → Row M U → Bool} {f : Row M U → Row M U} {k : Key M U}
    (h : ∀ row, p k row = false) : (FMap.updateWhere p f rows).get k = none := by
  rw [FMap.updateWhere, FMap.get_filterMap]
  rcases rows.get k with _ | row
  · rfl
  · rw [Option.bind_some, h row]
    rfl

omit [LinearOrder U] [DecidableEq M] in
theorem get_deleteWhere_eq_none {p : Key M U → Row M U → Bool} {k : Key M U}
    (h : ∀ row, p k row = false) : (FMap.deleteWhere p rows).get k = none := by
  rw [FMap.deleteWhere, FMap.get_filterMap]
  rcases rows.get k with _ | row
  · rfl
  · rw [Option.bind_some, h row]
    rfl

theorem get_insertAt_eq_none {j k : Key M U} {row : Row M U} (h : k ≠ j) :
    (FMap.insertAt j row rows).get k = none := by
  rw [FMap.insertAt]
  split
  · rfl
  · exact if_neg h

/-- STEP: a creation. -/
theorem Kept.insert {id : U} {item : StockItem M} (hat : t.at_ = .inserting id item) (h : Kept s t)
    (hadvance : Tx.Advance (code lowercase (fun q => q) parisDay) s t t') : Kept s t' := by
  rw [hadvance.of_write (by rw [hat]; rfl)]
  intro ph hph
  dsimp only at hph ⊢
  split at hph
  · exact absurd hph (by simp [Pc.phase])
  · rename_i htaken
    split at hph
    · exact absurd hph (by simp [Pc.phase])
    · rename_i hfree
      obtain rfl := Option.some.inj hph
      have hw := h _ (by rw [hat]; rfl)
      have hseen : s.rows.get (.stock id) = none := by
        rw [← hw.visible_stock List.not_mem_nil]
        exact Option.not_isSome_iff_eq_none.mp hfree
      rw [if_neg htaken, FMap.insertAt, if_neg hfree]
      exact hw.put hw.wf trivial (fun u => by simp [Phase.lines]) rfl rfl (fun _ => rfl) ⟨hseen, rfl⟩
        fun u j _ _ hwrote => hwrote.elim

/-- STEP: a line to change, held. -/
theorem Kept.read {actor : M} {role : Groups.Role} {id : U} {body : UpdateStockItemRequest}
    (hat : t.at_ = .reading actor role id body) (hrows : InBounds s.rows) (h : Kept s t)
    (hadvance : Tx.Advance (code lowercase (fun q => q) parisDay) s t t') : Kept s t' := by
  rw [hadvance.of_write (by rw [hat]; rfl)]
  intro ph hph
  dsimp only at hph ⊢
  have hw := h _ (by rw [hat]; rfl)
  split at hph
  · rename_i existing hrow
    split at hph
    · exact absurd hph (by simp [Pc.phase])
    · split at hph
      · exact absurd hph (by simp [Pc.phase])
      · rename_i item hitem
        obtain rfl := Option.some.inj hph
        have hseen : s.rows.get (.stock id) = some (.stock existing) := by
          rw [← hw.visible_stock List.not_mem_nil]
          exact hrow
        obtain ⟨i, hi, hhold⟩ := hrows id _ hseen
        obtain rfl := Row.stock.inj hi
        rw [FMap.touch, FMap.updateWhere_eq_one hrow (by simp) (by simp)]
        exact hw.put hhold trivial (fun u => by simp [Phase.lines]) rfl rfl (fun _ => rfl) ⟨hseen, hitem⟩
          fun u j _ _ hwrote => hwrote.elim
  · exact absurd hph (by simp [Pc.phase])

/-- STEP: a line changed. -/
theorem Kept.change {id : U} {body : UpdateStockItemRequest} {item : StockItem M}
    (hat : t.at_ = .writing id body item) (h : Kept s t)
    (hadvance : Tx.Advance (code lowercase (fun q => q) parisDay) s t t') : Kept s t' := by
  rw [hadvance.of_write (by rw [hat]; rfl)]
  intro ph hph
  dsimp only at hph ⊢
  have hw := h _ (by rw [hat]; rfl)
  split at hph
  · rename_i hthere
    obtain rfl := Option.some.inj hph
    obtain ⟨existing, _, _, hseen, hitem⟩ := hw.written (u := id) List.mem_cons_self
    rw [FMap.updateAt, if_pos hthere]
    exact hw.put (UpdateStockItemRequest.quantity_of_item hitem).2 trivial (fun u => by simp [Phase.lines])
      rfl rfl (fun _ => rfl) ⟨⟨existing, hseen, hitem⟩, rfl⟩ fun u _ hmem hu _ => absurd (List.mem_singleton.mp hmem) hu
  · exact absurd hph (by simp [Pc.phase])

/-- The statement that adds an article to the line `id`. -/
def Lot.mergeStatement (lot : Lot M U) (landed : List U) (a : Article U) (rest : List (Article U × Target U)) (id : U) :
    Stmt (Key M U) (Row M U) Text (Answer M U) (Pc M U) :=
  .write
    (FMap.updateWhere (fun k row => decide (k = .stock id) && match row with
        | .stock i => i.quantity ≤ MAX_QUANTITY - a.line.quantity
        | _ => false)
      fun
        | .stock i => .stock { i with quantity := i.quantity + a.line.quantity }
        | row => row)
    fun rows => match rows.get (.stock id) with
      | some (.stock i) =>
        if i.quantity ≤ MAX_QUANTITY - a.line.quantity then lot.next (landed ++ [id]) rest
        else .probing id
      | _ => .probing id

/-- STEP: an article received. -/
theorem Kept.land {lot : Lot M U} {landed : List U} {a : Article U} {target : Target U}
    {rest : List (Article U × Target U)} (hat : t.at_ = .landing lot landed a target rest)
    (hrows : InBounds s.rows) (h : Kept s t)
    (hadvance : Tx.Advance (code lowercase (fun q => q) parisDay) s t t') : Kept s t' := by
  have hw := h _ (by rw [hat]; rfl)
  obtain ⟨hpos, hmax⟩ := hw.article
  have hbounds := hw.inBounds hrows
  have hinsert : target = .New → Kept s t' := fun htarget => by
    rw [hadvance.of_write (by rw [hat, htarget]; rfl)]
    intro ph hph
    dsimp only at hph ⊢
    split at hph
    · exact absurd hph (by simp [Pc.phase])
    · rename_i hfree
      rw [phase_next] at hph
      obtain rfl := Option.some.inj hph
      have hnone := Option.not_isSome_iff_eq_none.mp hfree
      have hid : lot.draws.ids landed.length ∉ landed := fun hmem => by
        obtain ⟨i, _, hi, _⟩ := hw.written (u := lot.draws.ids landed.length) hmem
        exact absurd (hnone.symm.trans hi) (by simp)
      have hseen : s.rows.get (.stock (lot.draws.ids landed.length)) = none := by
        rw [← hw.visible_stock hid]
        exact hnone
      rw [FMap.insertAt, if_neg hfree]
      refine hw.land ⟨hpos.le, hmax⟩ ?_
      rw [hseen, receivedOn_of_notMem hid, add_zero]
      exact (zero_add _).symm
  have hupdate : ∀ id, target ≠ .New → target.mergeInto landed = some id → Kept s t' := fun id hnew hid => by
    have hcode : code lowercase (fun q => q) parisDay t.at_ = lot.mergeStatement landed a rest id := by
      rw [hat]
      cases target with
      | New => exact absurd rfl hnew
      | Stock id' =>
        obtain rfl := Option.some.inj hid
        rfl
      | Lot creator =>
        rw [code.eq_def]
        dsimp only
        rw [hid]
        rfl
    rw [hadvance.of_write hcode]
    intro ph hph
    dsimp only at hph ⊢
    split at hph
    · rename_i i hi
      split at hph
      · rename_i hle
        rw [phase_next] at hph
        obtain rfl := Option.some.inj hph
        rw [FMap.updateWhere_eq_one hi (by simpa using hle) fun j _ hj => by simp [hj]]
        obtain ⟨i', hi', hhold⟩ := hbounds _ _ hi
        obtain rfl := Row.stock.inj hi'
        refine hw.land ⟨add_nonneg hhold.1 hpos.le, le_sub_iff_add_le.mp hle⟩ ?_
        exact congrArg (· + a.line.quantity) (hw.landing_visible hi)
      · exact absurd hph (by simp [Pc.phase])
    · exact absurd hph (by simp [Pc.phase])
  rcases hid : target.mergeInto landed with _ | id
  · cases target with
    | New => exact hinsert rfl
    | Stock id => exact absurd hid (by simp [Target.mergeInto])
    | Lot creator =>
      refine (hadvance.not_rollback ?_).elim
      rw [hat, code.eq_def]
      dsimp only
      rw [hid]
  · exact hupdate id (fun hnew => by rw [hnew] at hid; exact absurd hid (by simp [Target.mergeInto])) hid

/-- STEP: the local invariant is kept. -/
theorem Kept.advance (hrows : InBounds s.rows) (h : Kept s t)
    (hadvance : Tx.Advance (code lowercase (fun q => q) parisDay) s t t') : Kept s t' := by
  cases hat : t.at_
  case opened r draws =>
    rw [hadvance.of_query (by rw [hat]; rfl)]
    intro ph hph
    obtain ⟨hbare, hwf⟩ := phase_begin hph
    exact (h _ (by rw [hat]; rfl)).bare ⟨rfl, rfl, rfl⟩ hbare hwf
  case coding code id item =>
    rw [hadvance.of_lock (by rw [hat]; rfl)]
    intro ph hph
    obtain rfl := Option.some.inj hph
    exact h _ (by rw [hat]; rfl)
  case inserting id item => exact h.insert hat hadvance
  case reading actor role id body => exact h.read hat hrows hadvance
  case writing id body item => exact h.change hat hadvance
  case holding actor draws items =>
    rw [hadvance.of_write (by rw [hat]; rfl)]
    intro ph hph
    dsimp only at hph ⊢
    split at hph
    · exact absurd hph (by simp [Pc.phase])
    · rename_i hall
      obtain rfl := Option.some.inj hph
      exact (h _ (by rw [hat]; rfl)).hold ((not_not.mp hall).trans (List.length_map _).symm)
  case planning actor draws items groceries =>
    rw [hadvance.of_query (by rw [hat]; rfl)]
    intro ph hph
    have hw := h _ (by rw [hat]; rfl)
    dsimp only at hph ⊢
    split at hph
    · exact absurd hph (by simp [Pc.phase])
    · rename_i articles targets hplan
      rw [phase_next] at hph
      obtain rfl := Option.some.inj hph
      obtain ⟨harticles, htargets⟩ := planLot_eq_ok hplan
      obtain ⟨hnd, hgroceries⟩ := hw.wf
      exact hw.follow ⟨rfl, rfl, rfl, fun _ => rfl, fun _ _ _ hwrote => hwrote.elim⟩
        ⟨⟨hnd, harticles, htargets, hgroceries⟩, [], rfl, rfl⟩
  case landing lot landed a target rest => exact h.land hat hrows hadvance
  case probing id =>
    rw [hadvance.of_query (by rw [hat]; rfl)]
    intro ph hph
    dsimp only at hph
    split at hph <;> exact absurd hph (by simp [Pc.phase])
  case clearing lot landed =>
    rw [hadvance.of_write (by rw [hat]; rfl)]
    intro ph hph
    obtain rfl := Option.some.inj hph
    exact (h _ (by rw [hat]; rfl)).clear
  case selecting d =>
    rw [hadvance.of_write (by rw [hat]; rfl)]
    intro ph hph
    obtain rfl := phase_select hph
    exact (h _ (by rw [hat]; rfl)).apart (fun u => get_updateWhere_eq_none fun row => by cases row <;> rfl)
      fun g => get_updateWhere_eq_none fun row => by cases row <;> rfl
  case holdingRecipe d sel =>
    rw [hadvance.of_write (by rw [hat]; rfl)]
    intro ph hph
    dsimp only at hph ⊢
    split at hph
    · obtain rfl := Option.some.inj hph
      exact (h _ (by rw [hat]; rfl)).apart (fun u => get_updateWhere_eq_none (by simp))
        fun g => get_updateWhere_eq_none (by simp)
    · exact absurd hph (by simp [Pc.phase])
  case listing d sel =>
    rw [hadvance.of_query (by rw [hat]; rfl)]
    intro ph hph
    dsimp only at hph ⊢
    split at hph
    · exact absurd hph (by simp [Pc.phase])
    · obtain rfl := Option.some.inj hph
      exact h _ (by rw [hat]; rfl)
  case reserving d sel names =>
    rw [hadvance.of_write (by rw [hat]; rfl)]
    intro ph hph
    obtain ⟨remaining, hsettle, rfl⟩ := phase_reserve hph
    exact (h _ (by rw [hat]; rfl)).reserve hrows hsettle
  case taking d sel toAdd line rest =>
    rw [hadvance.of_write (by rw [hat]; rfl)]
    intro ph hph
    dsimp only at hph ⊢
    split at hph
    · rw [phase_take] at hph
      obtain rfl := Option.some.inj hph
      obtain ⟨i, hseen, htaken⟩ := (h _ (by rw [hat]; rfl)).takeOne
      have hseen : (t.visible s.rows).get (.stock line.id) = some (.stock i) := hseen
      rw [FMap.updateWhere_eq_one hseen (by simp) fun j _ hj => by simp [hj]]
      exact htaken
    · exact absurd hph (by simp [Pc.phase])
  case dating d sel toAdd =>
    rw [hadvance.of_clock (by rw [hat]; rfl)]
    intro ph hph
    obtain rfl := Option.some.inj hph
    exact h _ (by rw [hat]; rfl)
  case logging d sel toAdd eatenOn =>
    rw [hadvance.of_write (by rw [hat]; rfl)]
    intro ph hph
    dsimp only at hph ⊢
    split at hph
    · exact absurd hph (by simp [Pc.phase])
    · rw [phase_add] at hph
      obtain rfl := Option.some.inj hph
      exact (h _ (by rw [hat]; rfl)).apart (fun u => get_insertAt_eq_none (by simp))
        fun g => get_insertAt_eq_none (by simp)
  case adding d sel added ing rest =>
    rw [hadvance.of_write (by rw [hat]; rfl)]
    intro ph hph
    dsimp only at hph ⊢
    split at hph
    · exact absurd hph (by simp [Pc.phase])
    · rw [phase_add] at hph
      obtain rfl := Option.some.inj hph
      exact (h _ (by rw [hat]; rfl)).apart (fun u => get_insertAt_eq_none (by simp))
        fun g => get_insertAt_eq_none (by simp)
  case changing d sel added update rest =>
    rw [hadvance.of_write (by rw [hat]; rfl)]
    intro ph hph
    dsimp only at hph ⊢
    rw [phase_change] at hph
    obtain rfl := Option.some.inj hph
    have hw := h _ (by rw [hat]; rfl)
    cases update.change with
    | SetQuantity quantity =>
      exact hw.apart (fun u => get_updateWhere_eq_none (by simp)) fun g => get_updateWhere_eq_none (by simp)
    | Remove =>
      exact hw.apart (fun u => get_deleteWhere_eq_none (by simp)) fun g => get_deleteWhere_eq_none (by simp)
    | MakeOptional =>
      exact hw.apart (fun u => get_updateWhere_eq_none (by simp)) fun g => get_updateWhere_eq_none (by simp)
  case stamping d sel =>
    rw [hadvance.of_write (by rw [hat]; rfl)]
    intro ph hph
    obtain rfl := Option.some.inj hph
    exact (h _ (by rw [hat]; rfl)).apart (fun u => get_updateWhere_eq_none (by simp))
      fun g => get_updateWhere_eq_none (by simp)
  case closing d sel =>
    rw [hadvance.of_write (by rw [hat]; rfl)]
    intro ph hph
    dsimp only at hph ⊢
    split at hph
    · obtain rfl := Option.some.inj hph
      exact (h _ (by rw [hat]; rfl)).apart (fun u => get_updateWhere_eq_none (by simp))
        fun g => get_updateWhere_eq_none (by simp)
    · exact absurd hph (by simp [Pc.phase])
  case refused r => exact (hadvance.not_rollback (by rw [hat]; rfl)).elim
  case failed => exact (hadvance.not_rollback (by rw [hat]; rfl)).elim
  case finished a => exact (hadvance.not_commit (by rw [hat]; rfl)).elim

/-! ### What a commit leaves -/

theorem Writing.visible_grocery (h : Writing ph rows pending) {g : U} (hg : g ∉ ph.items) :
    (rows.patch pending).get (.grocery g) = rows.get (.grocery g) := by
  rw [FMap.get_patch, h.pending_grocery hg]
  rfl

theorem Writing.only (h : Writing ph rows pending) {id : U} (hlines : ph.lines = [id])
    (hitems : ph.items = []) : Only id rows (rows.patch pending) where
  stock := fun v hv => h.visible_stock (by rw [hlines, List.mem_singleton]; exact hv)
  groceries := fun g => h.visible_grocery (by rw [hitems]; exact List.not_mem_nil)

theorem Writing.received {lot : Lot M U} {landed : List U} (h : Writing (.received lot landed) rows pending) :
    lot.Effect landed rows (rows.patch pending) where
  articles := h.wf.1.articles
  found := fun g hg => by
    obtain ⟨o, ho⟩ := Option.isSome_iff_exists.mp (h.items g.id (h.wf.1.groceries g hg))
    obtain ⟨_, row, hrow, _, hline⟩ := h.grocery g.id o ho
    rw [hrow, hline g hg rfl]
  landings := h.wf.2
  added := fun u => by
    by_cases hu : u ∈ landed
    · obtain ⟨i, _, hseen, hwrote⟩ := h.written (u := u) hu
      rw [quantityAt, hseen]
      exact hwrote
    · rw [quantityAt, h.visible_stock hu, receivedOn_of_notMem hu, add_zero]
      rfl
  present := fun g hg => by
    obtain ⟨o, ho⟩ := Option.isSome_iff_exists.mp (h.items g hg)
    obtain ⟨_, row, hrow, _⟩ := h.grocery g o ho
    rw [hrow]
    rfl
  deleted := fun g => by
    by_cases hg : g ∈ lot.ids
    · obtain ⟨o, ho⟩ := Option.isSome_iff_exists.mp (h.items g hg)
      obtain ⟨_, row, _, rfl, _⟩ := h.grocery g o ho
      rw [if_pos hg, FMap.get_patch, ho]
      rfl
    · rw [if_neg hg]
      exact h.visible_grocery hg

theorem Writing.cooked {d : Dish M U} (h : Writing (.cooking d []) rows pending) :
    d.Effect rows (rows.patch pending) where
  removals := h.wf.1.removals
  others := h.wf.1.others
  taken := fun p hp => by
    obtain ⟨i, _, hseen, hkept, _⟩ := h.written (u := p.1) (List.mem_map_of_mem hp)
    obtain ⟨hle, hnow⟩ := hkept p hp rfl
    rw [List.map_nil, if_neg List.not_mem_nil] at hnow
    refine ⟨hle, ?_⟩
    rw [quantityAt, hseen]
    exact hnow
  kept := fun u hu => by
    rw [quantityAt, h.visible_stock hu]
    rfl
  groceries := fun g => h.visible_grocery List.not_mem_nil

/-- A commit does what its answer says. -/
theorem Kept.effect {a : Answer M U} (hat : t.at_ = .finished a) (h : Kept s t) :
    a.Effect s.rows (t.visible s.rows) := by
  cases a with
  | created id item =>
    have hw := h (.created id item) (by rw [hat]; rfl)
    obtain ⟨i, _, hseen, hnone, rfl⟩ := hw.written (u := id) List.mem_cons_self
    exact ⟨hnone, hseen, hw.only rfl rfl⟩
  | updated id body item =>
    have hw := h (.updated id body item) (by rw [hat]; rfl)
    obtain ⟨i, _, hseen, hread, rfl⟩ := hw.written (u := id) List.mem_cons_self
    exact ⟨hread, hseen, hw.only rfl rfl⟩
  | received lot landed => exact Writing.received (h (.received lot landed) (by rw [hat]; rfl))
  | cooked d => exact Writing.cooked (h (.cooking d []) (by rw [hat]; rfl))

theorem eq_finished_of_commit {pc : Pc M U} {a : Answer M U}
    (h : code lowercase (fun q => q) parisDay pc = .commit a) : pc = .finished a := by
  cases pc with
  | finished b => exact congrArg Pc.finished (Stmt.commit.inj h)
  | landing lot landed a target rest =>
    rw [code.eq_def] at h
    dsimp only at h
    split at h <;> exact absurd h (by simp)
  | _ => exact absurd h (by simp [code])

/-- The shared invariant: the lines in bounds, and what was received gone, once each. -/
structure Sound (s : Shared (Key M U) (Row M U) (Answer M U)) : Prop where
  bounds : InBounds s.rows
  once : (receivedItems s.log).Nodup
  gone : ∀ g ∈ receivedItems s.log, s.rows.get (.grocery g) = none

/-- Items already received stay so: a commit writes no grocery item that is not there. -/
theorem Kept.gone {a : Answer M U} (hat : t.at_ = .finished a) (h : Kept s t) {g : U}
    (hg : s.rows.get (.grocery g) = none) :
    g ∉ a.receivedItems ∧ (t.visible s.rows).get (.grocery g) = none := by
  have heffect := h.effect hat
  cases a with
  | created id item => exact ⟨List.not_mem_nil, (heffect.2.2.groceries g).trans hg⟩
  | updated id body item => exact ⟨List.not_mem_nil, (heffect.2.2.groceries g).trans hg⟩
  | received lot landed =>
    have hmem : g ∉ lot.ids := fun hmem => by
      have hpresent := heffect.present g hmem
      rw [hg] at hpresent
      exact absurd hpresent (by simp)
    exact ⟨hmem, by rw [heffect.deleted, if_neg hmem, hg]⟩
  | cooked d => exact ⟨List.not_mem_nil, (heffect.groceries g).trans hg⟩

theorem Kept.received_nodup {a : Answer M U} (hat : t.at_ = .finished a) (h : Kept s t) :
    a.receivedItems.Nodup ∧ ∀ g ∈ a.receivedItems, (t.visible s.rows).get (.grocery g) = none := by
  cases a with
  | received lot landed =>
    have hw := h (.received lot landed) (by rw [hat]; rfl)
    refine ⟨hw.wf.1.ids, fun g hg => ?_⟩
    exact ((Writing.received hw).deleted g).trans (if_pos hg)
  | created | updated | cooked => exact ⟨List.nodup_nil, fun g hg => absurd hg List.not_mem_nil⟩

theorem Sound.commit {a : Answer M U} (hs : Sound s) (hat : t.at_ = .finished a) (h : Kept s t) :
    Sound (s.commit t a) := by
  obtain ⟨hnd, hnone⟩ := h.received_nodup hat
  refine ⟨?_, List.nodup_append.mpr ⟨hnd, hs.once, fun g hg g' hg' heq => ?_⟩, fun g hg => ?_⟩
  · obtain ⟨ph, hph⟩ : ∃ ph, t.at_.phase = some ph := by
      rw [hat]
      cases a <;> exact ⟨_, rfl⟩
    exact (h ph hph).inBounds hs.bounds
  · exact (h.gone hat (hs.gone g' hg')).1 (heq ▸ hg)
  · rcases List.mem_append.mp hg with hg | hg
    · exact hnone g hg
    · exact (h.gone hat (hs.gone g hg)).2

theorem preserved : Preserved (fun _ _ => True) (code lowercase (fun q => q) parisDay) Starts
    (Sound (M := M) (U := U)) Kept where
  tick := fun s c _ h => ⟨h.bounds, h.once, h.gone⟩
  tick_tx := fun s c t _ _ h => h
  begin := fun s l _ hstart ph hph => by
    obtain ⟨r, draws⟩ := hstart
    obtain rfl := Option.some.inj hph
    exact ⟨trivial, fun u o ho => absurd ho (by simp [Tx.begin]), fun g o ho => absurd ho (by simp [Tx.begin]),
      fun u hu => absurd hu List.not_mem_nil, fun g hg => absurd hg List.not_mem_nil⟩
  advance := fun s t t' _ hs h hadvance => h.advance hs.bounds hadvance
  commit := fun s t a hs h hcode => hs.commit (eq_finished_of_commit hcode) h
  commit_tx := fun s t a u _ _ _ hu hapart ph hph => (hu ph hph).of_rows fun k o ho => by
    show (s.rows.patch t.pending).get k = s.rows.get k
    rw [FMap.get_patch, hapart.get_eq_none ho]
    rfl

/-- CORRECT: from a stock in bounds, in every interleaving, the stock stays in bounds and no grocery item
    is received twice; what is shared changes only when a request that ends well commits, by what it
    answers; and a request to be refused ends with nothing changed. -/
theorem conserved {τ : Type*} [DecidableEq τ] (lowercase : Text → Text) (parisDay : ℤ → ℤ)
    (rows : Rows M U) (hrows : InBounds rows) (c : ℤ)
    (w : World (Key M U) (Row M U) Text (Answer M U) (Pc M U) τ)
    (hrun : ReflTransGen (Step (code lowercase (fun q => q) parisDay) Starts) (World.start rows c) w) :
    InBounds w.rows ∧ (receivedItems w.log).Nodup ∧
    ∀ w', Step (code lowercase (fun q => q) parisDay) Starts w w' →
      ((w'.rows = w.rows ∧ w'.log = w.log) ∨
        ∃ i t a, w.txs i = some t ∧ t.at_ = .finished a ∧ w'.txs i = none ∧
          w'.log = ⟨a, w'.rows, w.clock⟩ :: w.log ∧ a.Effect w.rows w'.rows) ∧
      ∀ i t, w.txs i = some t → (t.at_ = .failed ∨ ∃ r, t.at_ = .refused r) → w'.txs i ≠ some t →
        w'.txs i = none ∧ w'.rows = w.rows ∧ w'.log = w.log := by
  have hinit : Holds (Sound (M := M) (U := U)) Kept
      (World.start rows c : World (Key M U) (Row M U) Text (Answer M U) (Pc M U) τ) :=
    Holds.idle ⟨hrows, List.nodup_nil, fun g hg => absurd hg List.not_mem_nil⟩
  have hw := preserved.steps hinit hrun
  refine ⟨hw.shared.bounds, hw.shared.once, fun w' hstep => ⟨?_, fun i t ht hend hchanged => ?_⟩⟩
  · cases hstep with
    | tick | begin | advance | abort => exact Or.inl ⟨rfl, rfl⟩
    | commit i t a ht hcode =>
      have hat := eq_finished_of_commit hcode
      exact Or.inr ⟨i, t, a, ht, hat, Function.update_self .., rfl, (hw.tx i t ht).effect hat⟩
  · have hcode : code lowercase (fun q => q) parisDay t.at_ = .rollback := by
      rcases hend with hat | ⟨r, hat⟩ <;> rw [hat] <;> rfl
    cases hstep with
    | tick => exact absurd ht hchanged
    | begin j l hfree hstart =>
      have hij : i ≠ j := fun heq => by rw [heq, hfree] at ht; exact absurd ht (by simp)
      exact absurd ((Function.update_of_ne hij ..).trans ht) hchanged
    | advance j u u' hu _ hadvance _ =>
      by_cases hij : i = j
      · subst hij
        obtain rfl := Option.some.inj (ht.symm.trans hu)
        exact (hadvance.not_rollback hcode).elim
      · exact absurd ((Function.update_of_ne hij ..).trans ht) hchanged
    | commit j u a hu hcommit =>
      by_cases hij : i = j
      · subst hij
        obtain rfl := Option.some.inj (ht.symm.trans hu)
        exact absurd (hcode.symm.trans hcommit) (by simp)
      · exact absurd ((Function.update_of_ne hij ..).trans ht) hchanged
    | abort j =>
      by_cases hij : i = j
      · subst hij
        exact ⟨Function.update_self .., rfl, rfl⟩
      · exact absurd ((Function.update_of_ne hij ..).trans ht) hchanged

end

/-- Three « lait » put in the stock of a family of one. -/
def lait : CreateStockItemRequest := ⟨['l', 'a', 'i', 't'], none, .finite 3, [], none, none, none⟩

/-- The family of one, before and after: a line of three, from none. -/
theorem conserved_lait : ∃ w : World (Key ℕ ℕ) (Row ℕ ℕ) Text (Answer ℕ ℕ) (Pc ℕ ℕ) ℕ,
    quantityAt w.rows 7 = 3 ∧ InBounds w.rows := by
  have hrows : InBounds (FMap.one (.member 0) (.member .owner) : Rows ℕ ℕ) := fun u row hrow => by
    rw [FMap.get_one, if_neg (by simp)] at hrow
    exact absurd hrow (by simp)
  have hs : Tx.run (code asciiLowercase (fun q => q) fun now => now / 86400) 4
      ⟨(FMap.one (.member 0) (.member .owner) : Rows ℕ ℕ), 0, []⟩
      (Tx.begin (.opened (.create 0 lait) ⟨fun _ => 7, Listing.any ℕ⟩)) = some _ := rfl
  have hrun := Tx.start_run (0 : ℕ) (Starts.request _ _) hs
  exact ⟨_, rfl, (conserved asciiLowercase (fun now => now / 86400) _ hrows 0 _ hrun).1⟩

end Home.Stocks
