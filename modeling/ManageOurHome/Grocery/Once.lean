import ManageOurHome.Grocery.Generate

/-! @src apps/api/src/grocery_list/items.rs | layer:proof | family:grocery list

    An article is put on the list once, as long as the requests that would put it there take turns. The
    list is read, then added to, with nothing held: two requests that both read it without an article
    both insert it. What a request replayed after its commit finds on the list is all it would insert.

        A   list ───────────────▶ INSERT ─▶ commit
        B          list ─▶ INSERT ─▶ commit             twice on the list -/

namespace Home.Grocery

open FiniteMap ReadCommitted Relation
open Home.Stocks (articleKey articleKey_trim)

variable {M G R U : Type*} {lowercase : Text → Text} {noise : ℚ → ℚ}

/-- The key an item is compared on is its article's. -/
theorem key_of_mem_items [DecidableEq R] {k : Kitchen U R} {goal : Goal R} {item : NewItem R}
    (h : item ∈ k.items lowercase noise goal) : item.key = articleKey lowercase item.name := by
  cases goal with
  | generate =>
    rcases List.mem_append.mp h with h | h
    · obtain ⟨line, hline, rfl⟩ := List.mem_map.mp h
      rw [recipeItem, articleKey, trim_of_mem_planLines hline]
    · obtain ⟨name, _, rfl⟩ := List.mem_map.mp h
      rw [lowStockItem, articleKey, trim_trim]
  | missing recipe =>
    obtain ⟨line, _, rfl⟩ := List.mem_map.mp h
    rfl

/-! ### What a transaction makes -/

/-- It has inserted the article. -/
def Pc.Made (key : Text) : Pc M G R → Prop
  | .inserting _ _ _ _ created _ _ | .done _ created => ∃ p ∈ created, p.2.key = key
  | _ => False

/-- It is still to insert the article. -/
def Pc.Next (key : Text) : Pc M G R → Prop
  | .inserting _ _ _ seen _ item items => key ∉ seen ∧ ∃ i ∈ item :: items, i.key = key
  | _ => False

/-- Having read the list, it makes the article. -/
def Pc.Makes (key : Text) (pc : Pc M G R) : Prop := pc.Made key ∨ pc.Next key

section

variable {actor : M} {ids : ℕ → G} {goal : Goal R} {seen : Finset Text}
  {created : List (G × NewItem R)} {items : List (NewItem R)} {key : Text}

theorem made_nextInsert : (nextInsert actor ids goal seen created items).Made key ↔
    ∃ p ∈ created, p.2.key = key := by
  induction items with
  | nil => rfl
  | cons item items ih =>
    rw [nextInsert]
    split
    · exact ih
    · rfl

theorem next_nextInsert : (nextInsert actor ids goal seen created items).Next key ↔
    key ∉ seen ∧ ∃ i ∈ items, i.key = key := by
  induction items with
  | nil => simp [nextInsert, Pc.Next]
  | cons item items ih =>
    rw [nextInsert]
    split
    · rename_i hseen
      rw [ih]
      constructor
      · rintro ⟨hkey, i, hi, rfl⟩
        exact ⟨hkey, i, List.mem_cons_of_mem _ hi, rfl⟩
      · rintro ⟨hkey, i, hi, rfl⟩
        rcases List.mem_cons.mp hi with rfl | hi
        · exact absurd hseen hkey
        · exact ⟨hkey, i, hi, rfl⟩
    · rfl

/-- With all seen, nothing is inserted. -/
theorem nextInsert_of_seen (h : ∀ i ∈ items, i.key ∈ seen) :
    nextInsert actor ids goal seen created items = .done goal created := by
  induction items with
  | nil => rfl
  | cons item items ih =>
    rw [nextInsert, if_pos (h item List.mem_cons_self)]
    exact ih fun i hi => h i (List.mem_cons_of_mem _ hi)

end

variable [DecidableEq M] [DecidableEq G] [DecidableEq R] {k : Kitchen U R}

/-- What is known of the lines, and of the articles on the list seen. -/
def Pc.plan (lowercase : Text → Text) (noise : ℚ → ℚ) (k : Kitchen U R) (listed : Finset Text) :
    Pc M G R → Prop
  | .planning _ _ stockNames => stockNames = k.stockNames lowercase
  | .lowering _ _ lines => lines = k.missingLines lowercase noise (k.stockNames lowercase)
  | .listing _ _ goal items => items = k.items lowercase noise goal
  | .inserting _ _ goal seen _ item items => seen ⊆ listed ∧ item.key ∉ seen ∧
    (∀ i ∈ k.items lowercase noise goal, i.key ∈ seen ∨ i ∈ item :: items) ∧
    ∀ i ∈ item :: items, i ∈ k.items lowercase noise goal
  | .done goal _ => ∀ i ∈ k.items lowercase noise goal, i.key ∈ listed
  | _ => True

omit [DecidableEq M] [DecidableEq G] in
theorem Pc.plan_mono {listed listed' : Finset Text} {pc : Pc M G R}
    (h : pc.plan lowercase noise k listed) (hsub : listed ⊆ listed') :
    pc.plan lowercase noise k listed' := by
  cases pc with
  | planning | lowering | listing => exact h
  | inserting => exact ⟨h.1.trans hsub, h.2⟩
  | done => exact fun i hi => hsub (h i hi)
  | _ => trivial

omit [DecidableEq M] [DecidableEq G] in
theorem plan_nextInsert {actor : M} {ids : ℕ → G} {goal : Goal R} {seen listed : Finset Text}
    {created : List (G × NewItem R)} {items : List (NewItem R)} (hseen : seen ⊆ listed)
    (hall : ∀ i ∈ k.items lowercase noise goal, i.key ∈ seen ∨ i ∈ items)
    (hitems : ∀ i ∈ items, i ∈ k.items lowercase noise goal) :
    (nextInsert actor ids goal seen created items).plan lowercase noise k listed := by
  induction items with
  | nil =>
    exact fun i hi => hseen ((hall i hi).resolve_right List.not_mem_nil)
  | cons item items ih =>
    rw [nextInsert]
    split
    · rename_i hitem
      refine ih (fun i hi => ?_) fun i hi => hitems i (List.mem_cons_of_mem _ hi)
      rcases hall i hi with h | h
      · exact Or.inl h
      · rcases List.mem_cons.mp h with rfl | h
        · exact Or.inl hitem
        · exact Or.inr h
    · rename_i hitem
      exact ⟨hseen, hitem, hall, hitems⟩

/-- The local invariant: what is written is new, and an article it made, unless it failed. -/
structure Adding (lowercase : Text → Text) (noise : ℚ → ℚ) (k : Kitchen U R)
    (s : Shared (Key M G) (Row M R) (Goal R × List (G × NewItem R)))
    (t : Tx (Key M G) (Row M R) Empty (Pc M G R)) : Prop where
  new : ∀ x o, t.pending.get x = some o → s.rows.get x = none ∧
    ∃ g i, x = .item g ∧ o = some (.item i) ∧ i.checked = false ∧
      (t.at_ = .failed ∨ t.at_.Made (articleKey lowercase i.name))
  plan : t.at_.plan lowercase noise k (articles lowercase (t.visible s.rows))

section

variable {s : Shared (Key M G) (Row M R) (Goal R × List (G × NewItem R))}
  {t t' u : Tx (Key M G) (Row M R) Empty (Pc M G R)}

omit [DecidableEq R] in
/-- Rows only added to. -/
theorem articles_subset_patch {rows : Rows M G R} {w : FMap (Key M G) (Option (Row M R))}
    (hnew : ∀ x o, w.get x = some o → rows.get x = none) :
    articles lowercase rows ⊆ articles lowercase (rows.patch w) := by
  intro key hkey
  obtain ⟨g, i, hrow, hi⟩ := mem_articles.mp hkey
  refine mem_articles.mpr ⟨g, i, ?_, hi⟩
  rw [FMap.get_patch]
  rcases hw : w.get (.item g) with _ | o
  · exact hrow
  · exact absurd (hnew _ _ hw) (by rw [hrow]; simp)

/-- A row there stays. -/
theorem Adding.get_visible (h : Adding lowercase noise k s t) {x : Key M G} {row : Row M R}
    (hx : s.rows.get x = some row) : (t.visible s.rows).get x = some row := by
  rw [Tx.visible, FMap.get_patch]
  rcases hp : t.pending.get x with _ | o
  · exact hx
  · exact absurd (h.new _ _ hp).1 (by rw [hx]; simp)

theorem Adding.articles_subset (h : Adding lowercase noise k s t) :
    articles lowercase s.rows ⊆ articles lowercase (t.visible s.rows) :=
  articles_subset_patch fun x o hx => (h.new x o hx).1

/-- A row seen once another has committed: there before, or written by one of the two. -/
theorem Adding.get_beside (ht : Adding lowercase noise k s t) {x : Key M G} {row : Row M R}
    (hx : (t.visible (u.visible s.rows)).get x = some row) :
    ((t.visible s.rows).get x = some row ∧ (u.visible s.rows).get x = some row) ∨
      (t.pending.get x = some (some row) ∧ (t.visible s.rows).get x = some row) ∨
        u.pending.get x = some (some row) ∧ (u.visible s.rows).get x = some row := by
  rw [Tx.visible, FMap.get_patch] at hx
  rcases hp : t.pending.get x with _ | o
  · rw [hp] at hx
    rcases hq : u.pending.get x with _ | o
    · have hrow : s.rows.get x = some row := by
        rw [Tx.visible, FMap.get_patch, hq] at hx
        exact hx
      exact Or.inl ⟨ht.get_visible hrow, hx⟩
    · refine Or.inr (Or.inr ⟨?_, hx⟩)
      rw [Tx.visible, FMap.get_patch, hq] at hx
      exact congrArg some hx
  · rw [hp] at hx
    refine Or.inr (Or.inl ⟨congrArg some hx, ?_⟩)
    rw [Tx.visible, FMap.get_patch, hp]
    exact hx

theorem Adding.beside (ht : Adding lowercase noise k s t) (hu : Adding lowercase noise k s u)
    (hapart : t.Apart u) (a : Goal R × List (G × NewItem R)) :
    Adding lowercase noise k (s.commit u a) t := by
  have hnew : ∀ x o, t.pending.get x = some o → (u.visible s.rows).get x = none := fun x o hx => by
    rw [Tx.visible, FMap.get_patch, hapart.symm.get_eq_none hx]
    exact (ht.new x o hx).1
  refine ⟨fun x o hx => ⟨hnew x o hx, (ht.new x o hx).2⟩, Pc.plan_mono ht.plan fun key hkey => ?_⟩
  obtain ⟨g, i, hrow, hi⟩ := mem_articles.mp hkey
  refine mem_articles.mpr ⟨g, i, ?_, hi⟩
  show ((u.visible s.rows).patch t.pending).get _ = _
  rw [Tx.visible, FMap.get_patch] at hrow
  rw [FMap.get_patch]
  rcases hp : t.pending.get (.item g) with _ | o
  · rw [hp] at hrow
    exact hu.get_visible hrow
  · rw [hp] at hrow
    exact hrow

/-- A statement that reads, before the list is. -/
theorem Adding.read (h : Adding lowercase noise k s t) {pc : Pc M G R}
    (hfailed : t.at_ ≠ .failed) (hmade : ∀ key, ¬t.at_.Made key)
    (hplan : pc.plan lowercase noise k (articles lowercase (t.visible s.rows))) :
    Adding lowercase noise k s ⟨pc, t.pending, t.locks⟩ := by
  refine ⟨fun x o hx => ?_, hplan⟩
  obtain ⟨_, _, _, _, _, _, hi⟩ := h.new x o hx
  exact absurd (hi.resolve_left hfailed) (hmade _)

omit [DecidableEq R] in
/-- What is seen once an item is inserted. -/
theorem visible_insert {pc : Pc M G R} {g : G} {row : Row M R} {x : Key M G}
    (hfree : (t.visible s.rows).get (.item g) = none) :
    ((⟨pc, t.pending.merge (FMap.insertAt (.item g) row (t.visible s.rows)), t.locks⟩ :
      Tx (Key M G) (Row M R) Empty (Pc M G R)).visible s.rows).get x =
      if x = .item g then some row else (t.visible s.rows).get x := by
  rw [Tx.visible, FMap.patch_merge, ← Tx.visible, FMap.insertAt, hfree, FMap.get_patch]
  by_cases hx : x = .item g
  · simp [hx]
  · simp [hx]

omit [DecidableEq R] in
/-- The articles seen once an item is inserted. -/
theorem articles_insert {pc : Pc M G R} {g : G} {actor : M} {item : NewItem R} {key : Text}
    (hfree : (t.visible s.rows).get (.item g) = none) :
    key ∈ articles lowercase ((⟨pc,
      t.pending.merge (FMap.insertAt (.item g) (item.row actor) (t.visible s.rows)), t.locks⟩ :
        Tx (Key M G) (Row M R) Empty (Pc M G R)).visible s.rows) ↔
      key = articleKey lowercase item.name ∨ key ∈ articles lowercase (t.visible s.rows) := by
  rw [mem_articles, mem_articles]
  constructor
  · rintro ⟨g', i, hrow, hi, hkey⟩
    rw [visible_insert hfree] at hrow
    split at hrow
    · obtain rfl := Row.item.inj (Option.some.inj hrow)
      exact Or.inl hkey.symm
    · exact Or.inr ⟨g', i, hrow, hi, hkey⟩
  · rintro (rfl | ⟨g', i, hrow, hi, hkey⟩)
    · exact ⟨g, _, by rw [visible_insert hfree, if_pos rfl]; rfl, rfl, rfl⟩
    · refine ⟨g', i, ?_, hi, hkey⟩
      rw [visible_insert hfree, if_neg, hrow]
      rintro ⟨⟩
      exact absurd (hrow.symm.trans hfree) (by simp)

theorem Adding.inserted (h : Adding lowercase noise k s t) {actor : M} {ids : ℕ → G} {goal : Goal R}
    {seen : Finset Text} {created : List (G × NewItem R)} {item : NewItem R}
    {items : List (NewItem R)} (hat : t.at_ = .inserting actor ids goal seen created item items) {g : G}
    (hfree : (t.visible s.rows).get (.item g) = none) :
    Adding lowercase noise k s
      ⟨nextInsert actor ids goal (insert item.key seen) (created ++ [(g, item)]) items,
        t.pending.merge (FMap.insertAt (.item g) (item.row actor) (t.visible s.rows)), t.locks⟩ := by
  obtain ⟨hseen, _, hall, hitems⟩ : seen ⊆ articles lowercase (t.visible s.rows) ∧ _ := by
    have hplan := h.plan
    rw [hat] at hplan
    exact hplan
  have hkey := key_of_mem_items (hitems item List.mem_cons_self)
  refine ⟨fun x o hx => ?_, plan_nextInsert (fun key hmem => ?_) (fun i hi => ?_) fun i hi =>
    hitems i (List.mem_cons_of_mem _ hi)⟩
  · rw [FMap.get_merge, FMap.insertAt, hfree] at hx
    by_cases hxg : x = .item g
    · subst hxg
      obtain rfl : some (item.row actor) = o := by simpa using hx
      refine ⟨?_, g, _, rfl, rfl, rfl, Or.inr (made_nextInsert.mpr ⟨(g, item), by simp, hkey⟩)⟩
      rw [Tx.visible, FMap.get_patch] at hfree
      rcases hp : t.pending.get (.item g) with _ | o
      · rw [hp] at hfree
        exact hfree
      · obtain ⟨_, _, _, _, rfl, _⟩ := h.new _ _ hp
        rw [hp] at hfree
        exact absurd hfree (by simp)
    · obtain ⟨hnone, g', i, rfl, rfl, hi, hmade⟩ := h.new x o (by simpa [hxg] using hx)
      rw [hat] at hmade
      obtain ⟨p, hp, hpk⟩ := hmade.resolve_left (by simp)
      exact ⟨hnone, g', i, rfl, rfl, hi,
        Or.inr (made_nextInsert.mpr ⟨p, List.mem_append_left _ hp, hpk⟩)⟩
  · refine (articles_insert hfree).mpr ?_
    rcases Finset.mem_insert.mp hmem with rfl | hmem
    · exact Or.inl hkey
    · exact Or.inr (hseen hmem)
  · rcases hall i hi with hi | hi
    · exact Or.inl (Finset.mem_insert_of_mem hi)
    · rcases List.mem_cons.mp hi with rfl | hi
      · exact Or.inl (Finset.mem_insert_self _ _)
      · exact Or.inr hi

/-- STEP: the local invariant is kept. -/
theorem Adding.advance (h : Adding lowercase noise k s t)
    (hadvance : Tx.Advance (code lowercase noise k) s t t') : Adding lowercase noise k s t' := by
  cases hat : t.at_
  case opened actor goal ids =>
    rw [hadvance.of_query (by rw [hat]; rfl)]
    refine h.read (by simp [hat]) (by simp [hat, Pc.Made]) ?_
    split
    · cases goal <;> trivial
    · trivial
  case stocking =>
    rw [hadvance.of_query (by rw [hat]; rfl)]
    exact h.read (by simp [hat]) (by simp [hat, Pc.Made]) rfl
  case planning actor ids stockNames =>
    have hplan := h.plan
    rw [hat] at hplan
    rw [hadvance.of_query (by rw [hat]; rfl)]
    refine h.read (by simp [hat]) (by simp [hat, Pc.Made]) ?_
    rw [(hplan : stockNames = _)]
    rfl
  case lowering actor ids lines =>
    have hplan := h.plan
    rw [hat] at hplan
    rw [hadvance.of_query (by rw [hat]; rfl)]
    refine h.read (by simp [hat]) (by simp [hat, Pc.Made]) ?_
    rw [(hplan : lines = _)]
    rfl
  case selecting =>
    rw [hadvance.of_query (by rw [hat]; rfl)]
    refine h.read (by simp [hat]) (by simp [hat, Pc.Made]) ?_
    split <;> trivial
  case weighing =>
    rw [hadvance.of_query (by rw [hat]; rfl)]
    exact h.read (by simp [hat]) (by simp [hat, Pc.Made]) rfl
  case listing actor ids goal items =>
    have hplan := h.plan
    rw [hat] at hplan
    rw [hadvance.of_query (by rw [hat]; rfl)]
    refine h.read (by simp [hat]) (by simp [hat, Pc.Made]) ?_
    obtain rfl : items = k.items lowercase noise goal := hplan
    exact plan_nextInsert (fun key hkey => hkey) (fun i hi => Or.inr hi) fun i hi => hi
  case inserting actor ids goal seen created item items =>
    rw [hadvance.of_write (by rw [hat]; rfl)]
    rcases hrow : (t.visible s.rows).get (.item (ids created.length)) with _ | row
    · exact h.inserted hat hrow
    · refine ⟨fun x o hx => ?_, trivial⟩
      rw [FMap.insertAt, hrow, FMap.get_merge] at hx
      obtain ⟨hnone, g, i, hxg, ho, hi, _⟩ := h.new x o (by simpa using hx)
      exact ⟨hnone, g, i, hxg, ho, hi, Or.inl rfl⟩
  case refused => exact (hadvance.not_rollback (by rw [hat]; rfl)).elim
  case failed => exact (hadvance.not_rollback (by rw [hat]; rfl)).elim
  case done => exact (hadvance.not_commit (by rw [hat]; rfl)).elim

theorem Adding.begin {pc : Pc M G R} (hstart : Starts pc) : Adding lowercase noise k s (Tx.begin pc) := by
  obtain ⟨actor, goal, ids⟩ := hstart
  exact ⟨fun x o hx => absurd hx (by simp [Tx.begin]), trivial⟩

/-- Committed, the items of a request are on the list. -/
def Replayed (lowercase : Text → Text) (noise : ℚ → ℚ) (k : Kitchen U R)
    (s : Shared (Key M G) (Row M R) (Goal R × List (G × NewItem R))) : Prop :=
  ∀ x ∈ s.log, ∀ i ∈ k.items lowercase noise x.answer.1, i.key ∈ articles lowercase s.rows

theorem eq_done {pc : Pc M G R} {a : Goal R × List (G × NewItem R)}
    (h : code lowercase noise k pc = .commit a) : pc = .done a.1 a.2 := by
  cases pc with
  | done goal created => rw [← Stmt.commit.inj h]
  | opened actor goal => cases goal <;> exact absurd h (by simp [code])
  | _ => exact absurd h (by simp [code])

theorem adding_preserved : Preserved (fun _ _ => True) (code (M := M) (G := G) lowercase noise k) Starts
    (Replayed lowercase noise k) (Adding lowercase noise k) where
  tick s c _ hG := hG
  tick_tx s c t _ _ h := ⟨h.new, h.plan⟩
  begin s l _ hstart := Adding.begin hstart
  advance s t t' _ _ h hadvance := h.advance hadvance
  commit s t a hG h hcode := by
    have hplan := h.plan
    rw [eq_done hcode] at hplan
    intro x hx i hi
    rcases List.mem_cons.mp hx with rfl | hx
    · exact hplan i hi
    · exact h.articles_subset (hG x hx i hi)
  commit_tx s t a u _ ht _ hu hapart := hu.beside ht hapart.symm a

/-! ### Taking turns -/

/-- An item that was not there at first is the only one of its article, unchecked. -/
def Once (lowercase : Text → Text) (rows₀ rows : Rows M G R) : Prop :=
  ∀ g g' i i', rows₀.get (.item g) = none → rows.get (.item g) = some (.item i) →
    rows.get (.item g') = some (.item i') → i.checked = false → i'.checked = false →
    articleKey lowercase i.name = articleKey lowercase i'.name → g = g'

/-- Where no two requests make one article, what a transaction still inserts is not on the list. -/
structure Alone (lowercase : Text → Text) (rows₀ : Rows M G R)
    (s : Shared (Key M G) (Row M R) (Goal R × List (G × NewItem R)))
    (t : Tx (Key M G) (Row M R) Empty (Pc M G R)) : Prop where
  once : t.at_ ≠ .failed → Once lowercase rows₀ (t.visible s.rows)
  next : ∀ key, t.at_.Next key → key ∉ articles lowercase (t.visible s.rows)

variable {rows₀ : Rows M G R}

/-- What another commits leaves it, when it makes other articles. -/
theorem Alone.beside (h : Alone lowercase rows₀ s t) (hu : Alone lowercase rows₀ s u)
    (ht : Adding lowercase noise k s t) (htu : Adding lowercase noise k s u)
    (hlive : u.at_ ≠ .failed) (hturns : ∀ key, u.at_.Makes key → ¬t.at_.Makes key)
    (a : Goal R × List (G × NewItem R)) : Alone lowercase rows₀ (s.commit u a) t := by
  have hmade : ∀ {g i}, u.pending.get (.item g) = some (some (.item i)) →
      u.at_.Makes (articleKey lowercase i.name) := fun {g i} hx => by
    obtain ⟨_, g', i', _, ho, _, hmade⟩ := htu.new _ _ hx
    obtain rfl := Row.item.inj (Option.some.inj ho)
    exact Or.inl (hmade.resolve_left hlive)
  refine ⟨fun hfailed g g' i i' hnew hg hg' hi hi' hkey => ?_, fun key hnext hkey => ?_⟩
  · have hmade' : ∀ {g i}, t.pending.get (.item g) = some (some (.item i)) →
        t.at_.Makes (articleKey lowercase i.name) := fun {g i} hx => by
      obtain ⟨_, g', i', _, ho, _, hmade⟩ := ht.new _ _ hx
      obtain rfl := Row.item.inj (Option.some.inj ho)
      exact Or.inl (hmade.resolve_left hfailed)
    rcases ht.get_beside hg with ⟨htg, hug⟩ | ⟨htg, htg'⟩ | ⟨hug, hug'⟩
    · rcases ht.get_beside hg' with ⟨_, hug'⟩ | ⟨_, htg'⟩ | ⟨_, hug'⟩
      · exact hu.once hlive g g' i i' hnew hug hug' hi hi' hkey
      · exact h.once hfailed g g' i i' hnew htg htg' hi hi' hkey
      · exact hu.once hlive g g' i i' hnew hug hug' hi hi' hkey
    · rcases ht.get_beside hg' with ⟨htg'', _⟩ | ⟨_, htg''⟩ | ⟨hug', _⟩
      · exact h.once hfailed g g' i i' hnew htg' htg'' hi hi' hkey
      · exact h.once hfailed g g' i i' hnew htg' htg'' hi hi' hkey
      · exact absurd (hmade' htg) (hkey ▸ hturns _ (hmade hug'))
    · rcases ht.get_beside hg' with ⟨_, hug''⟩ | ⟨htg, _⟩ | ⟨_, hug''⟩
      · exact hu.once hlive g g' i i' hnew hug' hug'' hi hi' hkey
      · exact absurd (hmade' htg) (hkey ▸ hturns _ (hmade hug))
      · exact hu.once hlive g g' i i' hnew hug' hug'' hi hi' hkey
  · obtain ⟨g, i, hrow, hi, rfl⟩ := mem_articles.mp hkey
    rcases ht.get_beside hrow with ⟨hrow, _⟩ | ⟨_, hrow⟩ | ⟨hrow, _⟩
    · exact h.next _ hnext (mem_articles.mpr ⟨g, i, hrow, hi, rfl⟩)
    · exact h.next _ hnext (mem_articles.mpr ⟨g, i, hrow, hi, rfl⟩)
    · exact hturns _ (hmade hrow) (Or.inr hnext)

theorem Alone.inserted (h : Alone lowercase rows₀ s t) (hadding : Adding lowercase noise k s t) {actor : M}
    {ids : ℕ → G} {goal : Goal R} {seen : Finset Text} {created : List (G × NewItem R)}
    {item : NewItem R} {items : List (NewItem R)}
    (hat : t.at_ = .inserting actor ids goal seen created item items) {g : G}
    (hfree : (t.visible s.rows).get (.item g) = none) :
    Alone lowercase rows₀ s
      ⟨nextInsert actor ids goal (insert item.key seen) (created ++ [(g, item)]) items,
        t.pending.merge (FMap.insertAt (.item g) (item.row actor) (t.visible s.rows)), t.locks⟩ := by
  obtain ⟨_, hfirst, _, hitems⟩ : seen ⊆ articles lowercase (t.visible s.rows) ∧ _ := by
    have hplan := hadding.plan
    rw [hat] at hplan
    exact hplan
  have hkey := key_of_mem_items (hitems item List.mem_cons_self)
  have hnot : articleKey lowercase item.name ∉ articles lowercase (t.visible s.rows) := by
    refine hkey ▸ h.next _ ?_
    rw [hat]
    exact ⟨hfirst, item, List.mem_cons_self, rfl⟩
  have hother : ∀ {g' i}, (t.visible s.rows).get (.item g') = some (.item i) → i.checked = false →
      articleKey lowercase i.name ≠ articleKey lowercase item.name := fun hrow hi heq =>
    hnot (heq ▸ mem_articles.mpr ⟨_, _, hrow, hi, rfl⟩)
  refine ⟨fun _ g₁ g₂ i₁ i₂ hnew h₁ h₂ hi₁ hi₂ hsame => ?_, fun key hnext hmem => ?_⟩
  · rw [visible_insert hfree] at h₁ h₂
    split at h₁
    · rename_i hg₁
      split at h₂
      · rename_i hg₂
        exact (Key.item.inj hg₁).trans (Key.item.inj hg₂).symm
      · obtain rfl := Row.item.inj (Option.some.inj h₁)
        exact absurd hsame.symm (hother h₂ hi₂)
    · split at h₂
      · obtain rfl := Row.item.inj (Option.some.inj h₂)
        exact absurd hsame (hother h₁ hi₁)
      · exact h.once (by rw [hat]; simp) g₁ g₂ i₁ i₂ hnew h₁ h₂ hi₁ hi₂ hsame
  · obtain ⟨hseen, i, hi, rfl⟩ := next_nextInsert.mp hnext
    rcases (articles_insert hfree).mp hmem with hsame | hmem
    · exact hseen (hsame.trans hkey.symm ▸ Finset.mem_insert_self _ _)
    · refine h.next _ ?_ hmem
      rw [hat]
      exact ⟨fun hs => hseen (Finset.mem_insert_of_mem hs), i, List.mem_cons_of_mem _ hi, rfl⟩

omit [DecidableEq R] in
/-- A statement that inserts nothing, and leaves nothing to insert. -/
theorem Alone.read (h : Alone lowercase rows₀ s t) (hfailed : t.at_ ≠ .failed) {pc : Pc M G R}
    (hnext : ∀ key, ¬pc.Next key) : Alone lowercase rows₀ s ⟨pc, t.pending, t.locks⟩ :=
  ⟨fun _ => h.once hfailed, fun key hkey => absurd hkey (hnext key)⟩

/-- STEP: it stays alone. -/
theorem Alone.advance (h : Alone lowercase rows₀ s t) (hadding : Adding lowercase noise k s t)
    (hadvance : Tx.Advance (code lowercase noise k) s t t') : Alone lowercase rows₀ s t' := by
  cases hat : t.at_
  case opened actor goal ids =>
    rw [hadvance.of_query (by rw [hat]; rfl)]
    refine h.read (by simp [hat]) fun key => ?_
    split
    · cases goal <;> exact fun h => h
    · exact fun h => h
  case stocking | planning | lowering | weighing =>
    rw [hadvance.of_query (by rw [hat]; rfl)]
    exact h.read (by simp [hat]) fun key h => h
  case selecting =>
    rw [hadvance.of_query (by rw [hat]; rfl)]
    refine h.read (by simp [hat]) fun key => ?_
    split <;> exact fun h => h
  case listing actor ids goal items =>
    rw [hadvance.of_query (by rw [hat]; rfl)]
    exact ⟨fun _ => h.once (by simp [hat]), fun key hnext => (next_nextInsert.mp hnext).1⟩
  case inserting actor ids goal seen created item items =>
    rw [hadvance.of_write (by rw [hat]; rfl)]
    rcases hrow : (t.visible s.rows).get (.item (ids created.length)) with _ | row
    · exact h.inserted hadding hat hrow
    · exact ⟨fun hfailed => absurd rfl hfailed, fun key hnext => hnext.elim⟩
  case refused => exact (hadvance.not_rollback (by rw [hat]; rfl)).elim
  case failed => exact (hadvance.not_rollback (by rw [hat]; rfl)).elim
  case done => exact (hadvance.not_commit (by rw [hat]; rfl)).elim

end

section Runs

variable {τ : Type*} [DecidableEq τ]

/-- One step of the whole, where a commit leaves no other request that has read the list with one of
    its articles made or to make. -/
inductive TurnStep (lowercase : Text → Text) (noise : ℚ → ℚ) (k : Kitchen U R) :
    World (Key M G) (Row M R) Empty (Goal R × List (G × NewItem R)) (Pc M G R) τ →
    World (Key M G) (Row M R) Empty (Goal R × List (G × NewItem R)) (Pc M G R) τ → Prop where
  | other {w w' : World (Key M G) (Row M R) Empty (Goal R × List (G × NewItem R)) (Pc M G R) τ}
      (h : Step (code lowercase noise k) Starts w w') (hlog : w'.log = w.log) :
      TurnStep lowercase noise k w w'
  | commit (w : World (Key M G) (Row M R) Empty (Goal R × List (G × NewItem R)) (Pc M G R) τ) (i : τ)
      (t : Tx (Key M G) (Row M R) Empty (Pc M G R)) (a : Goal R × List (G × NewItem R))
      (ht : w.txs i = some t) (hcode : code lowercase noise k t.at_ = .commit a)
      (hturns : ∀ j u, j ≠ i → w.txs j = some u → ∀ key, t.at_.Makes key → ¬u.at_.Makes key) :
      TurnStep lowercase noise k w
        { toShared := w.toShared.commit t a, txs := Function.update w.txs i none }

variable {w w' : World (Key M G) (Row M R) Empty (Goal R × List (G × NewItem R)) (Pc M G R) τ}
  {rows₀ : Rows M G R}

theorem TurnStep.step (h : TurnStep lowercase noise k w w') :
    Step (code lowercase noise k) Starts w w' := by
  cases h with
  | other h => exact h
  | commit i t a ht hcode => exact .commit w i t a ht hcode

/-- The rows, and each transaction, when requests take turns. -/
structure InTurn (lowercase : Text → Text) (rows₀ : Rows M G R)
    (w : World (Key M G) (Row M R) Empty (Goal R × List (G × NewItem R)) (Pc M G R) τ) : Prop where
  rows : Once lowercase rows₀ w.rows
  tx : ∀ i t, w.txs i = some t → Alone lowercase rows₀ w.toShared t

/-- STEP: requests that take turns make an article once. -/
theorem InTurn.step (h : InTurn lowercase rows₀ w)
    (hholds : Holds (Replayed lowercase noise k) (Adding lowercase noise k) w)
    (hstep : TurnStep lowercase noise k w w') : InTurn lowercase rows₀ w' := by
  cases hstep with
  | other hstep hlog =>
    cases hstep with
    | tick c hc => exact ⟨h.rows, fun i t ht => ⟨(h.tx i t ht).once, (h.tx i t ht).next⟩⟩
    | begin i l hfree hstart =>
      refine ⟨h.rows, fun j t ht => ?_⟩
      rcases of_update ht with ⟨_, he⟩ | ⟨_, ht⟩
      · obtain rfl := Option.some.inj he
        obtain ⟨actor, goal, ids⟩ := hstart
        exact ⟨fun _ => by rw [Tx.visible_of_empty rfl]; exact h.rows, fun _ hnext => hnext.elim⟩
      · exact h.tx j t ht
    | advance i t t' ht hok hadvance hgranted =>
      refine ⟨h.rows, fun j u hu => ?_⟩
      rcases of_update hu with ⟨_, he⟩ | ⟨_, hu⟩
      · obtain rfl := Option.some.inj he
        exact (h.tx i t ht).advance (hholds.tx i t ht) hadvance
      · exact h.tx j u hu
    | commit i t a ht hcode => exact absurd hlog (List.cons_ne_self _ _)
    | abort i =>
      refine ⟨h.rows, fun j t ht => ?_⟩
      rcases of_update ht with ⟨_, he⟩ | ⟨_, ht⟩
      · exact absurd he (by simp)
      · exact h.tx j t ht
  | commit i t a ht hcode hturns =>
    have hlive : t.at_ ≠ .failed := by rw [eq_done hcode]; simp
    refine ⟨(h.tx i t ht).once hlive, fun j u hu => ?_⟩
    rcases of_update hu with ⟨_, he⟩ | ⟨hj, hu⟩
    · exact absurd he (by simp)
    · exact (h.tx j u hu).beside (h.tx i t ht) (hholds.tx j u hu) (hholds.tx i t ht) hlive
        (hturns j u hj hu) a

/-- From the start, what every transaction knows. -/
theorem holds_start (rows : Rows M G R) (c : ℤ) (hrun : ReflTransGen (Step (code lowercase noise k) Starts)
    (World.start rows c) w) : Holds (Replayed lowercase noise k) (Adding lowercase noise k) w :=
  adding_preserved.steps (Holds.idle fun _ hx => absurd hx List.not_mem_nil) hrun

/-- RUN: requests that take turns make an article once. -/
theorem InTurn.run {rows : Rows M G R} {c : ℤ}
    (hrun : ReflTransGen (TurnStep lowercase noise k) (World.start rows c) w) :
    InTurn lowercase rows w := by
  induction hrun with
  | refl =>
    refine ⟨fun g g' i i' hnew hg => ?_, fun i t ht => absurd ht (by simp [World.start])⟩
    exact absurd (hnew.symm.trans hg) (by simp)
  | tail hrun hstep ih =>
    have hplain := ReflTransGen.mono (fun _ _ h => TurnStep.step h) _ _ hrun
    exact ih.step (holds_start rows c hplain) hstep

/-! ### Replays -/

/-- The request of `goal`, begun with all its items on the list: it inserts nothing. -/
def Nothing (goal : Goal R) (t : Tx (Key M G) (Row M R) Empty (Pc M G R)) : Prop :=
  match t.at_ with
  | .inserting _ _ goal' _ _ _ _ => goal' ≠ goal
  | .done goal' created => goal' = goal → created = [] ∧ t.pending = FMap.empty
  | .refused _ | .failed => True
  | _ => t.pending = FMap.empty

omit [DecidableEq M] [DecidableEq G] [DecidableEq R] [DecidableEq τ] in
theorem nothing_nextInsert {actor : M} {ids : ℕ → G} {goal goal' : Goal R} (h : goal' ≠ goal)
    {seen : Finset Text} {created : List (G × NewItem R)} {items : List (NewItem R)}
    {pending : FMap (Key M G) (Option (Row M R))} {locks : List Empty} :
    Nothing goal ⟨nextInsert actor ids goal' seen created items, pending, locks⟩ := by
  induction items with
  | nil => exact fun hgoal => absurd hgoal h
  | cons item items ih =>
    rw [nextInsert]
    split
    · exact ih
    · exact h

omit [DecidableEq τ] in
theorem Nothing.advance {s : Shared (Key M G) (Row M R) (Goal R × List (G × NewItem R))}
    {t t' : Tx (Key M G) (Row M R) Empty (Pc M G R)} {goal : Goal R} (h : Nothing goal t)
    (hadding : Adding lowercase noise k s t)
    (hlisted : ∀ i ∈ k.items lowercase noise goal, i.key ∈ articles lowercase s.rows)
    (hadvance : Tx.Advance (code lowercase noise k) s t t') : Nothing goal t' := by
  cases hat : t.at_
  case opened actor goal' ids =>
    rw [Nothing, hat] at h
    rw [hadvance.of_query (by rw [hat]; rfl)]
    split
    · cases goal' <;> exact h
    · trivial
  case stocking | planning | lowering | weighing =>
    rw [Nothing, hat] at h
    rw [hadvance.of_query (by rw [hat]; rfl)]
    exact h
  case selecting =>
    rw [Nothing, hat] at h
    rw [hadvance.of_query (by rw [hat]; rfl)]
    split
    · exact h
    · trivial
  case listing actor ids goal' items =>
    have hplan := hadding.plan
    rw [hat] at hplan
    obtain rfl : items = k.items lowercase noise goal' := hplan
    rw [Nothing, hat] at h
    rw [hadvance.of_query (by rw [hat]; rfl)]
    by_cases hgoal : goal' = goal
    · subst hgoal
      rw [nextInsert_of_seen fun i hi => hadding.articles_subset (hlisted i hi)]
      exact fun _ => ⟨rfl, h⟩
    · exact nothing_nextInsert hgoal
  case inserting actor ids goal' seen created item items =>
    rw [Nothing, hat] at h
    rw [hadvance.of_write (by rw [hat]; rfl)]
    split
    · trivial
    · exact nothing_nextInsert h
  case refused => exact (hadvance.not_rollback (by rw [hat]; rfl)).elim
  case failed => exact (hadvance.not_rollback (by rw [hat]; rfl)).elim
  case done => exact (hadvance.not_commit (by rw [hat]; rfl)).elim

/-- The items of `goal` are on the list, and the transaction `i` inserts none of them. -/
structure Quiet (lowercase : Text → Text) (noise : ℚ → ℚ) (k : Kitchen U R) (goal : Goal R) (i : τ)
    (w : World (Key M G) (Row M R) Empty (Goal R × List (G × NewItem R)) (Pc M G R) τ) : Prop where
  listed : ∀ item ∈ k.items lowercase noise goal, item.key ∈ articles lowercase w.rows
  tx : ∀ t, w.txs i = some t → Nothing goal t

/-- STEP: it goes on inserting none. -/
theorem Quiet.step {goal : Goal R} {i : τ} (h : Quiet lowercase noise k goal i w)
    (hholds : Holds (Replayed lowercase noise k) (Adding lowercase noise k) w)
    (hstep : Step (code lowercase noise k) Starts w w') : Quiet lowercase noise k goal i w' := by
  cases hstep with
  | tick c hc => exact ⟨h.listed, h.tx⟩
  | begin j l hfree hstart =>
    refine ⟨h.listed, fun t ht => ?_⟩
    rcases of_update ht with ⟨_, he⟩ | ⟨_, ht⟩
    · obtain rfl := Option.some.inj he
      obtain ⟨actor, goal', ids⟩ := hstart
      rfl
    · exact h.tx t ht
  | advance j t t' ht hok hadvance hgranted =>
    refine ⟨h.listed, fun u hu => ?_⟩
    rcases of_update hu with ⟨rfl, he⟩ | ⟨_, hu⟩
    · obtain rfl := Option.some.inj he
      exact (h.tx t ht).advance (hholds.tx i t ht) h.listed hadvance
    · exact h.tx u hu
  | commit j t a ht hcode =>
    refine ⟨fun item hitem => (hholds.tx j t ht).articles_subset (h.listed item hitem), fun u hu => ?_⟩
    rcases of_update hu with ⟨_, he⟩ | ⟨_, hu⟩
    · exact absurd he (by simp)
    · exact h.tx u hu
  | abort j =>
    refine ⟨h.listed, fun u hu => ?_⟩
    rcases of_update hu with ⟨_, he⟩ | ⟨_, hu⟩
    · exact absurd he (by simp)
    · exact h.tx u hu

/-- RUN: begun after a commit of the same request, a transaction inserts nothing. -/
theorem Quiet.run {rows : Rows M G R} {c : ℤ} {goal : Goal R} {i : τ}
    (hstart : ReflTransGen (Step (code lowercase noise k) Starts) (World.start rows c) w)
    (hlog : ∃ x ∈ w.log, x.answer.1 = goal) (hfree : w.txs i = none)
    (hrun : ReflTransGen (Step (code lowercase noise k) Starts) w w') :
    Quiet lowercase noise k goal i w' := by
  induction hrun with
  | refl =>
    obtain ⟨x, hx, rfl⟩ := hlog
    exact ⟨(holds_start rows c hstart).shared x hx, fun t ht => absurd (hfree.symm.trans ht) (by simp)⟩
  | tail hrun hstep ih => exact ih.step (holds_start rows c (hstart.trans hrun)) hstep

/-! ### Every interleaving -/

/-- CORRECT: when the requests that would put an article on the list take turns, each article is put
    there once; and in every interleaving, a request begun after a commit of the same one puts nothing
    there. -/
theorem listed_once (rows : Rows M G R) (c : ℤ) :
    (∀ w : World (Key M G) (Row M R) Empty (Goal R × List (G × NewItem R)) (Pc M G R) τ,
      ReflTransGen (TurnStep lowercase noise k) (World.start rows c) w → Once lowercase rows w.rows) ∧
    ∀ (w w' : World (Key M G) (Row M R) Empty (Goal R × List (G × NewItem R)) (Pc M G R) τ)
      (goal : Goal R) (i : τ) (t : Tx (Key M G) (Row M R) Empty (Pc M G R))
      (created : List (G × NewItem R)),
      ReflTransGen (Step (code lowercase noise k) Starts) (World.start rows c) w →
      (∃ x ∈ w.log, x.answer.1 = goal) → w.txs i = none →
      ReflTransGen (Step (code lowercase noise k) Starts) w w' → w'.txs i = some t →
      code lowercase noise k t.at_ = .commit (goal, created) →
      created = [] ∧ t.visible w'.rows = w'.rows := by
  refine ⟨fun w hrun => (InTurn.run hrun).rows, ?_⟩
  intro w w' goal i t created hstart hlog hfree hrun ht hcode
  have hnothing := (Quiet.run hstart hlog hfree hrun).tx t ht
  rw [Nothing, eq_done hcode] at hnothing
  obtain ⟨hcreated, hpending⟩ := hnothing rfl
  exact ⟨hcreated, Tx.visible_of_empty hpending _⟩

end Runs

/-! ### Two requests at once -/

section Twice

/-- One article, of which nothing is left. -/
def short : Kitchen ℕ ℕ := ⟨[⟨0, ['L', 'a', 'i', 't'], ['L'], 0, some 1, none⟩], []⟩

/-- A family of one, its list empty. -/
def lone : Rows ℕ ℕ ℕ := FMap.empty.set (.member 0) (some .member)

/-- A generation, up to its `n`th statement. -/
def generation (n : ℕ) (s : Shared (Key ℕ ℕ) (Row ℕ ℕ)
    (Goal ℕ × List (ℕ × NewItem ℕ))) (g : ℕ) :
    Tx (Key ℕ ℕ) (Row ℕ ℕ) Empty (Pc ℕ ℕ ℕ) :=
  Tx.go (code asciiLowercase (fun q => q) short) n s (Tx.begin (.opened 0 .generate fun _ => g))

/-- What a generation inserts. -/
def lait : NewItem ℕ := ⟨['l', 'a', 'i', 't'], ['L', 'a', 'i', 't'], none, none, .low_stock, none⟩

/-- The list after one generation. -/
def listed : Shared (Key ℕ ℕ) (Row ℕ ℕ)
    (Goal ℕ × List (ℕ × NewItem ℕ)) :=
  Shared.commit ⟨lone, 0, []⟩ (generation 6 ⟨lone, 0, []⟩ 0) (.generate, [(0, lait)])

/-- A second generation after a first: one article, listed once. -/
theorem listed_once_lait :
    (∃ w : World (Key ℕ ℕ) (Row ℕ ℕ) Empty
        (Goal ℕ × List (ℕ × NewItem ℕ)) (Pc ℕ ℕ ℕ) ℕ,
      w.rows.get (.item 0) = some (lait.row 0) ∧ Once asciiLowercase lone w.rows) ∧
    ∃ created, (generation 6 listed 1).at_ = .done .generate created ∧ created = [] := by
  have hbegin : TurnStep asciiLowercase (fun q => q) short (World.only ⟨lone, 0, []⟩ (0 : ℕ) none)
      (World.only ⟨lone, 0, []⟩ 0 (some (generation 0 ⟨lone, 0, []⟩ 0))) :=
    .other (World.beside_begin (.request 0 .generate fun _ => 0)) rfl
  have hgo : ReflTransGen (TurnStep asciiLowercase (fun q => q) short)
      (World.only ⟨lone, 0, []⟩ (0 : ℕ) (some (generation 0 ⟨lone, 0, []⟩ 0)))
      (World.only ⟨lone, 0, []⟩ 0 (some (generation 6 ⟨lone, 0, []⟩ 0))) :=
    ReflTransGen.mono (fun _ _ h => .other h.1 (congrArg Shared.log h.2)) _ _
      (World.beside_go_shared (fun _ => trivial) 6 _ fun _ _ _ _ _ hu => absurd hu (by simp))
  have hcommit : TurnStep asciiLowercase (fun q => q) short
      (World.only ⟨lone, 0, []⟩ (0 : ℕ) (some (generation 6 ⟨lone, 0, []⟩ 0))) (World.only listed 0 none) := by
    have hstep : TurnStep asciiLowercase (fun q => q) short
        (World.only ⟨lone, 0, []⟩ (0 : ℕ) (some (generation 6 ⟨lone, 0, []⟩ 0))) _ :=
      .commit _ 0 (generation 6 ⟨lone, 0, []⟩ 0) (.generate, [(0, lait)]) (by simp [World.beside]) rfl
        fun j u hj hu => by simp [World.beside, hj] at hu
    simpa [World.beside, listed] using hstep
  have hrun := (ReflTransGen.head hbegin hgo).tail hcommit
  rw [← World.start_eq_only] at hrun
  have hagain : Step (code asciiLowercase (fun q => q) short) Starts (World.only listed (1 : ℕ) none) _ :=
    World.beside_begin (Starts.request 0 .generate fun _ => 1)
  have hsame : (World.only listed (0 : ℕ) none : World (Key ℕ ℕ) (Row ℕ ℕ) Empty
      _ (Pc ℕ ℕ ℕ) ℕ) = World.only listed 1 none := by simp [World.beside]
  refine ⟨⟨_, rfl, (listed_once lone 0).1 _ hrun⟩, [], rfl, ?_⟩
  exact ((listed_once lone 0).2 _ _ .generate 1 (generation 6 listed 1) []
    (ReflTransGen.mono (fun _ _ h => TurnStep.step h) _ _ hrun) ⟨_, List.mem_cons_self, rfl⟩ rfl
    (hsame ▸ ReflTransGen.head hagain (World.only_go (fun _ => trivial) 6 _))
    (by simp [World.beside, generation]) rfl).1

/-- Two generations that both read the list before either inserts put the article there twice. -/
theorem listed_twice : ¬∀ w : World (Key ℕ ℕ) (Row ℕ ℕ) Empty
    (Goal ℕ × List (ℕ × NewItem ℕ)) (Pc ℕ ℕ ℕ) ℕ,
    ReflTransGen (Step (code asciiLowercase (fun q => q) short) Starts) (World.start lone 0) w →
      Once asciiLowercase lone w.rows := by
  intro hclaim
  have hbegin : Step (code asciiLowercase (fun q => q) short) Starts (World.only ⟨lone, 0, []⟩ (0 : ℕ) none) _ :=
    World.beside_begin (Starts.request 0 .generate fun _ => 1)
  have hread := ReflTransGen.head hbegin (World.only_go (fun _ => trivial) 5 _)
  rw [← World.start_eq_only] at hread
  -- the second comes and goes while the first holds nothing
  have hwhile : ReflTransGen (Step (code asciiLowercase (fun q => q) short) Starts)
      (World.only ⟨lone, 0, []⟩ (0 : ℕ) (some (generation 5 ⟨lone, 0, []⟩ 1)))
      (World.only listed 0 (some (generation 5 ⟨lone, 0, []⟩ 1))) :=
    Tx.run_while (by decide : (1 : ℕ) ≠ 0) ⟨rfl, rfl⟩ (Starts.request 0 .generate fun _ => 0) 7 rfl
  have hend : ReflTransGen (Step (code asciiLowercase (fun q => q) short) Starts)
      (World.only listed (0 : ℕ) (some (generation 5 ⟨lone, 0, []⟩ 1)))
      (World.only (Shared.commit listed (Tx.go (code asciiLowercase (fun q => q) short) 1 listed
        (generation 5 ⟨lone, 0, []⟩ 1)) (.generate, [(1, lait)])) 0 none) :=
    Tx.run_steps 0 2 _ _ rfl
  have honce := hclaim _ ((hread.trans hwhile).trans hend)
  exact absurd (honce 0 1 _ _ rfl rfl rfl rfl rfl rfl) (by decide)

end Twice

end Home.Grocery
