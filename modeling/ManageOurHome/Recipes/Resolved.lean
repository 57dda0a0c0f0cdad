import ManageOurHome.Recipes.Taxonomy

/-! @src apps/api/src/recipes/taxonomy.rs | layer:proof | family:taxonomy

    What a name is resolved to, by the ids of the categories and not by their places in the file: the eldest of the
    categories named so, whatever the order of the lines, of the parents and of the names.

        places  2 ──▶ 1 ──▶ 0          ids  en:semi-skimmed-milks ──▶ en:milks ──▶ en:dairies -/

namespace Home.Recipes

open Relation (ReflTransGen)

variable (unicode : Unicode) (rows : List Row)

/-! ### Categories by their ids -/

/-- `b` is a parent of `a`, and both are defined. -/
def Parent (a b : Text) : Prop := (∃ r ∈ rows, r.id = a ∧ b ∈ r.parentIds) ∧ ∃ r ∈ rows, r.id = b

/-- A name of the category `a` has this key. -/
def Named (fold : Bool) (key a : Text) : Prop :=
  key ≠ [] ∧ ∃ r ∈ rows, r.id = a ∧ ∃ name ∈ r.frenchNames, normalize unicode name fold = key

/-- `a` is named so, and the others named so all descend from it. -/
structure Eldest (fold : Bool) (key a : Text) : Prop where
  named : Named unicode rows fold key a
  descend : ∀ b, Named unicode rows fold key b → ReflTransGen (Parent rows) b a

/-- A file of categories of their own, few enough to be indexed. -/
structure Indexed : Prop where
  nodup : (rows.map Row.id).Nodup
  length : rows.length ≤ 2 ^ 32

variable {unicode rows} {rows' : List Row} {i j t : ℕ} {a b key name : Text} {r r' : Row} {fold : Bool}

theorem tagId_eq (h : Indexed rows) (hi : i < rows.length) : tagId i = i := Nat.mod_eq_of_lt (hi.trans_le h.length)

theorem lt_of_id (h : (rows.map Row.id)[i]? = some a) : i < rows.length := by
  simpa using (List.getElem?_eq_some_iff.mp h).1

theorem place_unique (h : Indexed rows) (hi : (rows.map Row.id)[i]? = some a) (hj : (rows.map Row.id)[j]? = some a) :
    i = j := by
  obtain ⟨hlt, -⟩ := List.getElem?_eq_some_iff.mp hi
  exact (List.getElem?_inj hlt h.nodup).mp (hi.trans hj.symm)

theorem byId_iff (h : Indexed rows) : (bareOf rows).byId a = some t ↔ (rows.map Row.id)[t]? = some a := by
  constructor
  · intro hbyId
    obtain ⟨i, hi, rfl⟩ := byId_spec hbyId
    rwa [tagId_eq h (lt_of_id hi)]
  · intro hid
    obtain ⟨t', ht'⟩ := collected_of_mem (mem_byId.mpr ⟨t, hid, rfl⟩)
    obtain ⟨j, hj, rfl⟩ := byId_spec ht'
    obtain rfl := place_unique h hid hj
    rwa [tagId_eq h (lt_of_id hj)] at ht'

theorem exists_place (hr : r ∈ rows) : ∃ i : ℕ, rows[i]? = some r ∧ (rows.map Row.id)[i]? = some r.id := by
  obtain ⟨i, hi⟩ := List.mem_iff_getElem?.mp hr
  exact ⟨i, hi, by rw [List.getElem?_map, hi, Option.map_some]⟩

theorem row_of_place (h : (rows.map Row.id)[i]? = some a) : ∃ r, rows[i]? = some r ∧ r ∈ rows ∧ r.id = a := by
  rw [List.getElem?_map, Option.map_eq_some_iff] at h
  obtain ⟨r, hr, hid⟩ := h
  exact ⟨r, hr, List.mem_of_getElem? hr, hid⟩

theorem isParent_iff (h : Indexed rows) (hi : (rows.map Row.id)[i]? = some a) :
    (bareOf rows).IsParent i j ↔ ∃ b, (rows.map Row.id)[j]? = some b ∧ Parent rows a b := by
  obtain ⟨r, hr, hmem, rfl⟩ := row_of_place hi
  rw [Taxonomy.IsParent, parentsOf_of_row hr, List.mem_filterMap]
  constructor
  · rintro ⟨b, hb, hbyId⟩
    have hj := (byId_iff h).mp hbyId
    obtain ⟨q, -, hq, hid⟩ := row_of_place hj
    exact ⟨b, hj, ⟨r, hmem, rfl, hb⟩, q, hq, hid⟩
  · rintro ⟨b, hj, ⟨q, hq, hid, hb⟩, -⟩
    obtain ⟨k, hk, hkid⟩ := exists_place hq
    obtain rfl := place_unique h hi (hid ▸ hkid)
    obtain rfl : r = q := Option.some.inj (hr.symm.trans hk)
    exact ⟨b, hb, (byId_iff h).mpr hj⟩

/-- The graph of the places is the graph of the ids. -/
theorem descends_iff (h : Indexed rows) (hi : (rows.map Row.id)[i]? = some a) (hj : (rows.map Row.id)[j]? = some b) :
    ReflTransGen (bareOf rows).IsParent i j ↔ ReflTransGen (Parent rows) a b := by
  constructor
  · intro hdesc
    have hrun : ∀ j, ReflTransGen (bareOf rows).IsParent i j →
        ∃ b, (rows.map Row.id)[j]? = some b ∧ ReflTransGen (Parent rows) a b := by
      intro j hdesc
      induction hdesc with
      | refl => exact ⟨a, hi, .refl⟩
      | tail _ hstep ih =>
        obtain ⟨b, hb, hreach⟩ := ih
        obtain ⟨c, hc, hparent⟩ := (isParent_iff h hb).mp hstep
        exact ⟨c, hc, hreach.tail hparent⟩
    obtain ⟨b', hb', hreach⟩ := hrun j hdesc
    rwa [Option.some.inj (hj.symm.trans hb')]
  · intro hdesc
    have hrun : ∀ b, ReflTransGen (Parent rows) a b →
        ∃ j, (rows.map Row.id)[j]? = some b ∧ ReflTransGen (bareOf rows).IsParent i j := by
      intro b hdesc
      induction hdesc with
      | refl => exact ⟨i, hi, .refl⟩
      | tail _ hstep ih =>
        obtain ⟨j, hj, hreach⟩ := ih
        obtain ⟨-, q, hq, rfl⟩ := id hstep
        obtain ⟨k, -, hk⟩ := exists_place hq
        exact ⟨k, hk, hreach.tail ((isParent_iff h hj).mpr ⟨q.id, hk, hstep⟩)⟩
    obtain ⟨j', hj', hreach⟩ := hrun b hdesc
    rwa [place_unique h hj hj']

theorem named_iff (h : Indexed rows) (hi : (rows.map Row.id)[i]? = some a) :
    i ∈ candidates unicode fold rows key ↔ Named unicode rows fold key a := by
  obtain ⟨r, hr, hmem, rfl⟩ := row_of_place hi
  rw [mem_candidates]
  refine and_congr_right fun _ => ⟨?_, ?_⟩
  · rintro ⟨j, q, hq, rfl, hname⟩
    rw [tagId_eq h (List.getElem?_eq_some_iff.mp hq).1] at hr
    obtain rfl : r = q := Option.some.inj (hr.symm.trans hq)
    exact ⟨r, hmem, rfl, hname⟩
  · rintro ⟨q, hq, hid, hname⟩
    obtain ⟨k, hk, hkid⟩ := exists_place hq
    obtain rfl := place_unique h hi (hid ▸ hkid)
    exact ⟨i, q, hk, tagId_eq h (lt_of_id hi), hname⟩

/-- What a key is resolved to among the names. -/
theorem index_spec (unicode : Unicode) (fold : Bool) (key : Text) (h : Indexed rows) :
    (∀ t, (bareOf rows).commonAncestorAmong (candidates unicode fold rows key) = some t →
      ∃ a, (rows.map Row.id)[t]? = some a ∧ Eldest unicode rows fold key a) ∧
    ((bareOf rows).commonAncestorAmong (candidates unicode fold rows key) = none →
      ∀ a, ¬Eldest unicode rows fold key a) := by
  have hid : ∀ t, t ∈ candidates unicode fold rows key → ∃ a, (rows.map Row.id)[t]? = some a := fun t ht =>
    ⟨_, List.getElem?_eq_getElem (by simpa using candidates_lt unicode ht)⟩
  obtain ⟨hsome, hnone⟩ := commonAncestorAmong_spec fun t ht => candidates_lt unicode ht
  constructor
  · intro t ht
    obtain ⟨hmem, hall⟩ := hsome t ht
    obtain ⟨a, ha⟩ := hid t hmem
    refine ⟨a, ha, (named_iff h ha).mp hmem, fun b hb => ?_⟩
    obtain ⟨-, q, hq, rfl, -⟩ := id hb
    obtain ⟨k, -, hk⟩ := exists_place hq
    exact (descends_iff h hk ha).mp (hall k ((named_iff h hk).mpr hb))
  · intro hnot a ⟨hnamed, hall⟩
    obtain ⟨-, q, hq, rfl, -⟩ := id hnamed
    obtain ⟨k, -, hk⟩ := exists_place hq
    obtain ⟨t, ht, hdesc⟩ := hnone hnot k ((named_iff h hk).mpr hnamed)
    obtain ⟨b, hb⟩ := hid t ht
    exact hdesc ((descends_iff h hb hk).mpr (hall b ((named_iff h hb).mp ht)))

/-- What a name is resolved to: by its accents, or else without them, or to nothing. -/
inductive ResolvedTo (unicode : Unicode) (rows : List Row) (name : Text) : Option Text → Prop
  | exact {a : Text} (h : Eldest unicode rows false (normalize unicode name false) a) : ResolvedTo unicode rows name (some a)
  | folded {a : Text} (hnone : ∀ b, ¬Eldest unicode rows false (normalize unicode name false) b)
      (h : Eldest unicode rows true (normalize unicode name true) a) : ResolvedTo unicode rows name (some a)
  | none (hnone : ∀ b, ¬Eldest unicode rows false (normalize unicode name false) b)
      (h : ∀ b, ¬Eldest unicode rows true (normalize unicode name true) b) : ResolvedTo unicode rows name none

/-- The id a name is resolved to. -/
def canon (unicode : Unicode) (tax : Taxonomy) (name : Text) : Option Text :=
  (tax.canonicalIngredient unicode name).bind tax.id

theorem canonicalIngredient_id {tsv : Text} {t : TagId} (h : Indexed (rowsOf tsv))
    (ht : (parse unicode tsv).canonicalIngredient unicode name = some t) : ∃ a, (parse unicode tsv).id t = some a := by
  rcases Option.or_eq_some_iff.mp ht with ht | ⟨-, ht⟩
  · obtain ⟨a, ha, -⟩ := (index_spec unicode false _ h).1 t ht
    exact ⟨a, ha⟩
  · obtain ⟨a, ha, -⟩ := (index_spec unicode true _ h).1 t ht
    exact ⟨a, ha⟩

theorem canon_resolvedTo (unicode : Unicode) {tsv : Text} (h : Indexed (rowsOf tsv)) (name : Text) :
    ResolvedTo unicode (rowsOf tsv) name (canon unicode (parse unicode tsv) name) := by
  obtain ⟨hexact, hnoExact⟩ := index_spec unicode false (normalize unicode name false) h
  obtain ⟨hfolded, hnoFolded⟩ := index_spec unicode true (normalize unicode name true) h
  rw [canon, Taxonomy.canonicalIngredient]
  rcases h1 : (parse unicode tsv).exact (normalize unicode name false) with - | t
  · rcases h2 : (parse unicode tsv).folded (normalize unicode name true) with - | t
    · exact .none (hnoExact h1) (hnoFolded h2)
    · obtain ⟨a, ha, heldest⟩ := hfolded t h2
      rw [Option.or_some, Option.getD_none, Option.bind_some, show (parse unicode tsv).id t = some a from ha]
      exact .folded (hnoExact h1) heldest
  · obtain ⟨a, ha, heldest⟩ := hexact t h1
    rw [Option.some_or, Option.bind_some, show (parse unicode tsv).id t = some a from ha]
    exact .exact heldest

/-! ### The lines in another order -/

/-- A line with its parents and its names in another order. -/
structure SameRow (r r' : Row) : Prop where
  id : r'.id = r.id
  parents : r.parentIds.Perm r'.parentIds
  names : r.frenchNames.Perm r'.frenchNames

def SameRows (rows rows' : List Row) : Prop := ∃ lines, rows.Perm lines ∧ List.Forall₂ SameRow lines rows'

/-- No two categories descend from each other. -/
def Acyclic (rows : List Row) : Prop :=
  ∀ a b, ReflTransGen (Parent rows) a b → ReflTransGen (Parent rows) b a → a = b

theorem SameRow.symm (h : SameRow r r') : SameRow r' r := ⟨h.id.symm, h.parents.symm, h.names.symm⟩

theorem SameRows.mem (h : SameRows rows rows') :
    (∀ r ∈ rows, ∃ r' ∈ rows', SameRow r r') ∧ ∀ r' ∈ rows', ∃ r ∈ rows, SameRow r' r := by
  obtain ⟨lines, hperm, hsame⟩ := h
  have hboth : (∀ r ∈ lines, ∃ r' ∈ rows', SameRow r r') ∧ ∀ r' ∈ rows', ∃ r ∈ lines, SameRow r' r := by
    clear hperm
    induction hsame with
    | nil => simp
    | cons hrow _ ih =>
      obtain ⟨hleft, hright⟩ := ih
      refine ⟨List.forall_mem_cons.mpr ⟨⟨_, List.mem_cons_self, hrow⟩, fun r hr => ?_⟩,
        List.forall_mem_cons.mpr ⟨⟨_, List.mem_cons_self, hrow.symm⟩, fun r' hr' => ?_⟩⟩
      · obtain ⟨r', hr', h⟩ := hleft r hr
        exact ⟨r', List.mem_cons_of_mem _ hr', h⟩
      · obtain ⟨r, hr, h⟩ := hright r' hr'
        exact ⟨r, List.mem_cons_of_mem _ hr, h⟩
  refine ⟨fun r hr => hboth.1 r (hperm.mem_iff.mp hr), fun r' hr' => ?_⟩
  obtain ⟨r, hr, h⟩ := hboth.2 r' hr'
  exact ⟨r, hperm.mem_iff.mpr hr, h⟩

theorem Indexed.same (h : Indexed rows) (hsame : SameRows rows rows') : Indexed rows' := by
  obtain ⟨lines, hperm, hforall⟩ := hsame
  have hids : lines.map Row.id = rows'.map Row.id := by
    clear hperm
    induction hforall with
    | nil => rfl
    | cons hrow _ ih => rw [List.map_cons, List.map_cons, hrow.id, ih]
  refine ⟨hids ▸ (hperm.map Row.id).nodup_iff.mp h.nodup, ?_⟩
  rw [← hforall.length_eq, ← hperm.length_eq]
  exact h.length

theorem Parent.same (hmem : ∀ r ∈ rows, ∃ r' ∈ rows', SameRow r r') (h : Parent rows a b) : Parent rows' a b := by
  obtain ⟨⟨r, hr, rfl, hb⟩, q, hq, rfl⟩ := h
  obtain ⟨r', hr', hsame⟩ := hmem r hr
  obtain ⟨q', hq', hsame'⟩ := hmem q hq
  exact ⟨⟨r', hr', hsame.id, hsame.parents.mem_iff.mp hb⟩, q', hq', hsame'.id⟩

theorem Named.same (hmem : ∀ r ∈ rows, ∃ r' ∈ rows', SameRow r r') (h : Named unicode rows fold key a) :
    Named unicode rows' fold key a := by
  obtain ⟨hne, r, hr, rfl, name, hname, hkey⟩ := h
  obtain ⟨r', hr', hsame⟩ := hmem r hr
  exact ⟨hne, r', hr', hsame.id, name, hsame.names.mem_iff.mp hname, hkey⟩

theorem Eldest.same (hmem : (∀ r ∈ rows, ∃ r' ∈ rows', SameRow r r') ∧ ∀ r' ∈ rows', ∃ r ∈ rows, SameRow r' r)
    (h : Eldest unicode rows fold key a) : Eldest unicode rows' fold key a :=
  ⟨h.named.same hmem.1, fun b hb =>
    ReflTransGen.mono (fun _ _ hparent => Parent.same hmem.1 hparent) b a (h.descend b (hb.same hmem.2))⟩

theorem Eldest.unique (hacyclic : Acyclic rows) (ha : Eldest unicode rows fold key a) (hb : Eldest unicode rows fold key b) :
    a = b :=
  hacyclic a b (hb.descend a ha.named) (ha.descend b hb.named)

theorem ResolvedTo.same (hmem : (∀ r ∈ rows, ∃ r' ∈ rows', SameRow r r') ∧ ∀ r' ∈ rows', ∃ r ∈ rows, SameRow r' r)
    {result : Option Text} (h : ResolvedTo unicode rows name result) : ResolvedTo unicode rows' name result := by
  cases h with
  | exact h => exact .exact (h.same hmem)
  | folded hnone h => exact .folded (fun b hb => hnone b (hb.same hmem.symm)) (h.same hmem)
  | none hnone h => exact .none (fun b hb => hnone b (hb.same hmem.symm)) fun b hb => h b (hb.same hmem.symm)

theorem ResolvedTo.unique (hacyclic : Acyclic rows) {result result' : Option Text}
    (h : ResolvedTo unicode rows name result) (h' : ResolvedTo unicode rows name result') : result = result' := by
  cases h with
  | exact h =>
    cases h' with
    | exact h' => rw [h.unique hacyclic h']
    | folded hnone _ => exact absurd h (hnone _)
    | none hnone _ => exact absurd h (hnone _)
  | folded hnone h =>
    cases h' with
    | exact h' => exact absurd h' (hnone _)
    | folded _ h' => rw [h.unique hacyclic h']
    | none _ hnone => exact absurd h (hnone _)
  | none hnone h =>
    cases h' with
    | exact h' => exact absurd h' (hnone _)
    | folded _ h' => exact absurd h' (h _)
    | none => rfl

/-- The lines, the parents and the names may stand in any order. -/
theorem canon_same {tsv tsv' : Text} (h : Indexed (rowsOf tsv)) (hacyclic : Acyclic (rowsOf tsv))
    (hsame : SameRows (rowsOf tsv) (rowsOf tsv')) (name : Text) :
    canon unicode (parse unicode tsv') name = canon unicode (parse unicode tsv) name := by
  have hresolved := canon_resolvedTo unicode (h.same hsame) name
  exact (hresolved.same hsame.mem.symm).unique hacyclic (canon_resolvedTo unicode h name)

end Home.Recipes
