import ManageOurHome.HttpGuard.Origin
import ManageOurHome.Lib.Search
import ManageOurHome.Recipes.PlainText

/-! @src apps/api/src/recipes/taxonomy.rs | layer:model | family:taxonomy

    The categories of ingredients: each with its parents and its French names, a line each. A name is resolved by what is
    left of it without case, plurals, articles and ligatures, with its accents first; of several categories of one name,
    it is the one the others descend from.

        en:hams                  Jambons
        en:diced-ham   en:hams   Jambon|Dés de jambon        jambon ──▶ en:hams

    The tables of Unicode are a parameter. -/

namespace Home.Recipes

open HttpGuard (splitOnce)
open Search (search)
open Relation (ReflTransGen)

/-! ### Names -/

/-- `char::to_lowercase` and `char::is_alphanumeric`. -/
structure Unicode where
  lowercase : Char → Text
  alphanumeric : Char → Bool

def foldAccent (c : Char) : Char :=
  match c with
  | 'à' | 'â' | 'ä' | 'á' | 'ã' | 'å' => 'a'
  | 'ç' => 'c'
  | 'é' | 'è' | 'ê' | 'ë' => 'e'
  | 'î' | 'ï' | 'í' | 'ì' => 'i'
  | 'ô' | 'ö' | 'ó' | 'ò' | 'õ' => 'o'
  | 'ù' | 'û' | 'ü' | 'ú' => 'u'
  | 'ÿ' | 'ý' => 'y'
  | 'ñ' => 'n'
  | _ => c

/-- What a character of a name becomes, once it is lowercase. -/
def spelled (foldAccents : Bool) (c : Char) : Text :=
  if c = 'œ' then ['o', 'e'] else if c = 'æ' then ['a', 'e'] else if foldAccents then [foldAccent c] else [c]

def linkWords : List Text := [['d'], ['d', 'e'], ['d', 'u'], ['d', 'e', 's']]

def leadingArticles : List Text := [['l'], ['l', 'e'], ['l', 'a'], ['l', 'e', 's']]

/-- A word of more than three characters without its `s` or `x`. -/
def singular (w : Text) : Text :=
  if 3 < w.length ∧ (w.getLast? = some 's' ∨ w.getLast? = some 'x') then w.dropLast else w

variable (unicode : Unicode)

def spelling (foldAccents : Bool) (name : Text) : Text := (name.flatMap unicode.lowercase).flatMap (spelled foldAccents)

/-- The words of a text, without those that link others. -/
def wordsOf (text : Text) : List Text :=
  (text.splitOnP fun c => !unicode.alphanumeric c).filter fun w => w ≠ [] ∧ w ∉ linkWords

def normalize (name : Text) (foldAccents : Bool) : Text :=
  let words := (wordsOf unicode (spelling unicode foldAccents name)).dropWhile (· ∈ leadingArticles)
  [' '].intercalate (words.map singular)

/-! ### Lines -/

structure Row where
  id : Text
  parents : Text
  names : Text
  deriving DecidableEq

/-- The fields of a line, which has a tab. -/
def rowOf (line : Text) : Option Row :=
  (splitOnce ['\t'] line).map fun (id, rest) =>
    match splitOnce ['\t'] rest with
    | some (parents, names) => ⟨id, parents, names⟩
    | none => ⟨id, rest, []⟩

/-- The lines but the comments. -/
def rowsOf (tsv : Text) : List Row :=
  ((linesFrom [] tsv).filter fun line => line ≠ [] ∧ line.head? ≠ some '#').filterMap rowOf

def Row.parentIds (r : Row) : List Text := r.parents.splitOn ','

def Row.frenchNames (r : Row) : List Text := r.names.splitOn '|'

/-! ### The taxonomy -/

/-- An index of 32 bits. -/
abbrev TagId := ℕ

def tagId (i : ℕ) : TagId := i % 2 ^ 32

structure Taxonomy where
  ids : List Text
  byId : Text → Option TagId
  parents : List (List TagId)
  exact : Text → Option TagId
  folded : Text → Option TagId

/-- A map collected from pairs: the last of a key. -/
def collected (pairs : List (Text × TagId)) (key : Text) : Option TagId :=
  (pairs.reverse.find? fun p => p.1 = key).map Prod.snd

def Taxonomy.parentsOf (tax : Taxonomy) (t : TagId) : List TagId := tax.parents.getD t []

/-- The tag and every category it descends from: no category is pushed twice. -/
def Taxonomy.ancestorsOrSelf (tax : Taxonomy) (tag : TagId) : Option (List TagId) :=
  search tax.parentsOf (tax.parents.length + 1) tag

def Taxonomy.satisfies (tax : Taxonomy) (stockTag recipeTag : TagId) : Bool :=
  stockTag = recipeTag || (tax.ancestorsOrSelf stockTag).any fun seen => recipeTag ∈ seen

/-- The one candidate every other candidate descends from. -/
def Taxonomy.commonAncestorAmong (tax : Taxonomy) (tags : List TagId) : Option TagId :=
  tags.find? fun a => tags.all fun t => tax.satisfies t a

/-- One name of the category `i` among the candidates. -/
def addName (fold : Bool) (i : ℕ) (candidates : Text → List TagId) (name : Text) : Text → List TagId :=
  let key := normalize unicode name fold
  if key = [] ∨ tagId i ∈ candidates key then candidates
  else Function.update candidates key (candidates key ++ [tagId i])

def candidates (fold : Bool) (rows : List Row) : Text → List TagId :=
  rows.zipIdx.foldl (fun candidates r => r.1.frenchNames.foldl (addName unicode fold r.2) candidates) fun _ => []

/-- The categories and their parents, before the names are indexed; a parent that is not defined is ignored. -/
def bareOf (rows : List Row) : Taxonomy :=
  let ids := rows.map Row.id
  let byId := collected (ids.zipIdx.map fun p => (p.1, tagId p.2))
  { ids := ids
    byId := byId
    parents := rows.map fun r => r.parentIds.filterMap byId
    exact := fun _ => none
    folded := fun _ => none }

def parse (tsv : Text) : Taxonomy :=
  let rows := rowsOf tsv
  { bareOf rows with
    exact := fun key => (bareOf rows).commonAncestorAmong (candidates unicode false rows key)
    folded := fun key => (bareOf rows).commonAncestorAmong (candidates unicode true rows key) }

def Taxonomy.tag (tax : Taxonomy) (id : Text) : Option TagId := tax.byId id

def Taxonomy.id (tax : Taxonomy) (tag : TagId) : Option Text := tax.ids[tag]?

def Taxonomy.canonicalIngredient (tax : Taxonomy) (name : Text) : Option TagId :=
  (tax.exact (normalize unicode name false)).or (tax.folded (normalize unicode name true))

variable {rows : List Row} {tags : List TagId} {a b t : TagId} {i : ℕ} {r : Row} {id key name : Text} {fold : Bool}

/-! ### The graph of the categories -/

theorem mem_of_collected {pairs : List (Text × TagId)} (h : collected pairs key = some t) : (key, t) ∈ pairs := by
  obtain ⟨p, hfind, rfl⟩ := Option.map_eq_some_iff.mp h
  obtain rfl : p.1 = key := by simpa using List.find?_some hfind
  exact List.mem_reverse.mp (List.mem_of_find?_eq_some hfind)

theorem collected_of_mem {pairs : List (Text × TagId)} (h : (key, t) ∈ pairs) : ∃ t', collected pairs key = some t' := by
  rw [← Option.isSome_iff_exists, collected, Option.isSome_map, List.find?_isSome]
  exact ⟨(key, t), List.mem_reverse.mpr h, decide_eq_true rfl⟩

theorem mem_byId : (id, t) ∈ (rows.map Row.id).zipIdx.map (fun p => (p.1, tagId p.2)) ↔
    ∃ i, (rows.map Row.id)[i]? = some id ∧ tagId i = t := by
  rw [List.mem_map]
  constructor
  · rintro ⟨⟨id', i⟩, hmem, heq⟩
    obtain ⟨rfl, rfl⟩ := Prod.mk.inj heq
    exact ⟨i, by simpa using List.mem_zipIdx_iff_getElem?.mp hmem, rfl⟩
  · rintro ⟨i, hid, rfl⟩
    exact ⟨(id, i), List.mem_zipIdx_iff_getElem?.mpr hid, rfl⟩

theorem byId_spec (h : (bareOf rows).byId id = some t) : ∃ i, (rows.map Row.id)[i]? = some id ∧ tagId i = t :=
  mem_byId.mp (mem_of_collected h)

theorem parentsOf_of_row (h : rows[i]? = some r) :
    (bareOf rows).parentsOf i = r.parentIds.filterMap (bareOf rows).byId := by
  simp [Taxonomy.parentsOf, bareOf, List.getD_eq_getElem?_getD, h]

/-- Every parent is a category of the file. -/
theorem parentsOf_lt (h : b ∈ (bareOf rows).parentsOf a) : b < rows.length := by
  rcases hr : rows[a]? with - | r
  · simp [Taxonomy.parentsOf, bareOf, List.getD_eq_getElem?_getD, hr] at h
  · rw [parentsOf_of_row hr, List.mem_filterMap] at h
    obtain ⟨id, -, hid⟩ := h
    obtain ⟨i, hi, rfl⟩ := byId_spec hid
    have hlt : i < rows.length := by simpa using (List.getElem?_eq_some_iff.mp hi).1
    exact (Nat.mod_le i _).trans_lt hlt

/-- `b` is a parent of `a`. -/
def Taxonomy.IsParent (tax : Taxonomy) (a b : TagId) : Prop := b ∈ tax.parentsOf a

/-- The search ends, with what the parents lead to. -/
theorem ancestorsOrSelf_eq (ha : a < rows.length) : ∃ seen, (bareOf rows).ancestorsOrSelf a = some seen ∧
    ∀ b, b ∈ seen ↔ ReflTransGen (bareOf rows).IsParent a b := by
  have hlength : (bareOf rows).parents.length = rows.length := List.length_map _
  refine Search.search_eq (U := Finset.range rows.length) (Finset.mem_range.mpr ha) (fun a _ b hb => ?_) ?_
  · exact Finset.mem_range.mpr (parentsOf_lt hb)
  · rw [Finset.card_range, hlength]
    exact Nat.lt_succ_self _

theorem satisfies_iff (ha : a < rows.length) :
    (bareOf rows).satisfies a b = true ↔ ReflTransGen (bareOf rows).IsParent a b := by
  obtain ⟨seen, hseen, hmem⟩ := ancestorsOrSelf_eq ha
  rw [Taxonomy.satisfies, hseen, Option.any_some, Bool.or_eq_true, decide_eq_true_iff, decide_eq_true_iff, hmem]
  constructor
  · rintro (rfl | h)
    · exact .refl
    · exact h
  · exact .inr

/-! ### Candidates -/

theorem mem_addName {candidates : Text → List TagId} : t ∈ addName unicode fold i candidates name key ↔
    t ∈ candidates key ∨ (key ≠ [] ∧ tagId i = t ∧ normalize unicode name fold = key) := by
  rw [addName]
  by_cases hkey : normalize unicode name fold = key
  · subst hkey
    split
    · rename_i h
      constructor
      · exact .inl
      · rintro (hmem | ⟨hne, rfl, -⟩)
        · exact hmem
        · exact h.resolve_left hne
    · rename_i h
      rw [not_or] at h
      rw [Function.update_self, List.mem_append, List.mem_singleton]
      constructor
      · exact Or.imp_right fun heq => ⟨h.1, heq.symm, rfl⟩
      · exact Or.imp_right fun heq => heq.2.1.symm
  · have hsame : ∀ tags, Function.update candidates (normalize unicode name fold) tags key = candidates key :=
      fun tags => Function.update_of_ne (Ne.symm hkey) _ _
    split
    · simp [hkey]
    · simp [hsame, hkey]

theorem mem_addNames {names : List Text} {candidates : Text → List TagId} :
    t ∈ names.foldl (addName unicode fold i) candidates key ↔
      t ∈ candidates key ∨ (key ≠ [] ∧ tagId i = t ∧ ∃ name ∈ names, normalize unicode name fold = key) := by
  induction names generalizing candidates with
  | nil => simp
  | cons name names ih =>
    rw [List.foldl_cons, ih, mem_addName, or_assoc]
    refine or_congr_right ⟨?_, ?_⟩
    · rintro (⟨hne, ht, hname⟩ | ⟨hne, ht, other, hmem, hother⟩)
      · exact ⟨hne, ht, name, List.mem_cons_self, hname⟩
      · exact ⟨hne, ht, other, List.mem_cons_of_mem _ hmem, hother⟩
    · rintro ⟨hne, ht, other, hmem, hother⟩
      rcases List.mem_cons.mp hmem with rfl | hmem
      · exact .inl ⟨hne, ht, hother⟩
      · exact .inr ⟨hne, ht, other, hmem, hother⟩

/-- The candidates of a key are the categories with a name that has it. -/
theorem mem_candidates : t ∈ candidates unicode fold rows key ↔ key ≠ [] ∧ ∃ i r, rows[i]? = some r ∧ tagId i = t ∧
    ∃ name ∈ r.frenchNames, normalize unicode name fold = key := by
  have hrun : ∀ (pairs : List (Row × ℕ)) (start : Text → List TagId),
      t ∈ pairs.foldl (fun candidates r => r.1.frenchNames.foldl (addName unicode fold r.2) candidates) start key ↔
        t ∈ start key ∨ (key ≠ [] ∧ ∃ p ∈ pairs, tagId p.2 = t ∧
          ∃ name ∈ p.1.frenchNames, normalize unicode name fold = key) := by
    intro pairs
    induction pairs with
    | nil => simp
    | cons p pairs ih =>
      intro start
      rw [List.foldl_cons, ih, mem_addNames, or_assoc]
      refine or_congr_right ⟨?_, ?_⟩
      · rintro (⟨hne, hp⟩ | ⟨hne, q, hmem, hq⟩)
        · exact ⟨hne, p, List.mem_cons_self, hp⟩
        · exact ⟨hne, q, List.mem_cons_of_mem _ hmem, hq⟩
      · rintro ⟨hne, q, hmem, hq⟩
        rcases List.mem_cons.mp hmem with rfl | hmem
        · exact .inl ⟨hne, hq⟩
        · exact .inr ⟨hne, q, hmem, hq⟩
  rw [candidates, hrun]
  simp only [List.not_mem_nil, false_or]
  refine and_congr_right fun _ => ⟨?_, ?_⟩
  · rintro ⟨⟨r, i⟩, hmem, ht, hname⟩
    exact ⟨i, r, by simpa using List.mem_zipIdx_iff_getElem?.mp hmem, ht, hname⟩
  · rintro ⟨i, r, hr, ht, hname⟩
    exact ⟨(r, i), List.mem_zipIdx_iff_getElem?.mpr hr, ht, hname⟩

theorem candidates_lt (h : t ∈ candidates unicode fold rows key) : t < rows.length := by
  obtain ⟨-, i, r, hr, rfl, -⟩ := (mem_candidates unicode).mp h
  exact (Nat.mod_le i _).trans_lt (List.getElem?_eq_some_iff.mp hr).1

/-- Of the candidates, the one found is one the others descend from; none is where none is found. -/
theorem commonAncestorAmong_spec (hlt : ∀ t ∈ tags, t < rows.length) :
    (∀ a, (bareOf rows).commonAncestorAmong tags = some a →
      a ∈ tags ∧ ∀ t ∈ tags, ReflTransGen (bareOf rows).IsParent t a) ∧
    ((bareOf rows).commonAncestorAmong tags = none →
      ∀ a ∈ tags, ∃ t ∈ tags, ¬ReflTransGen (bareOf rows).IsParent t a) := by
  constructor
  · intro a h
    have hall := List.find?_some h
    rw [List.all_eq_true] at hall
    exact ⟨List.mem_of_find?_eq_some h, fun t ht => (satisfies_iff (hlt t ht)).mp (hall t ht)⟩
  · intro h a ha
    have hnone := List.find?_eq_none.mp h a ha
    rw [List.all_eq_true] at hnone
    push Not at hnone
    obtain ⟨t, ht, hnot⟩ := hnone
    exact ⟨t, ht, fun hdesc => hnot ((satisfies_iff (hlt t ht)).mpr hdesc)⟩

end Home.Recipes
