import ManageOurHome.Recipes.PageText

/-! @src apps/api/src/recipes/microdata.rs | layer:model | family:text of a page

    The recipe a page marks up as microdata. The walk over an item reads an element that carries a property or opens an
    item, and goes on past the token that ends it: the start tag of a sibling that closes it is passed over as well, and
    what that sibling holds is read in its place.

        <li itemprop=recipeIngredient>sel<li itemprop=recipeIngredient>eau      read: sel -/

namespace Home.Recipes.Microdata

open Html Nesting

/-! ### The import -/

/-- What a page's recipe gives. -/
@[ext] structure ExtractedRecipe where
  name : Text
  ingredients : List Text
  steps : List Text
  deriving DecidableEq

/-- A type names schema.org's `Recipe`. -/
def namesRecipe (t : Text) : Bool :=
  t = "Recipe".toList || decide ("/Recipe".toList <:+ t) || decide (":Recipe".toList <:+ t)

/-- The value of an attribute of a start tag. -/
def attributeAt (token : Token) (name : String) : Option Text :=
  match token with
  | .start _ attributes => attributeOf attributes name.toList
  | _ => none

/-- An element `itemscope` whose `itemtype` lists `Recipe`. -/
def isRecipeItem (token : Token) : Bool :=
  (attributeAt token "itemscope").isSome &&
    (attributeAt token "itemtype").any fun types => (splitWhitespace types).any namesRecipe

/-- An element that carries properties, or opens an item. -/
def carries (token : Token) : Bool := (attributeAt token "itemprop").isSome || (attributeAt token "itemscope").isSome

/-- The names of its properties. -/
def properties (token : Token) : List Text := (attributeAt token "itemprop").elim [] splitWhitespace

def isName (property : Text) : Bool := property = "name".toList

def isIngredient (property : Text) : Bool := property = "recipeIngredient".toList || property = "ingredients".toList

def isInstructions (property : Text) : Bool := property = "recipeInstructions".toList

/-- The value of a property: the `content` of its element, else its text. -/
def valueAt (d : Document) (pos : ℕ) (token : Token) : Text := (attributeAt token "content").getD (d.text pos)

/-- The steps of its instructions: its `content`, else its lines. -/
def stepsAt (d : Document) (pos : ℕ) (token : Token) : List Text :=
  match attributeAt token "content" with
  | some text => if text = [] then d.lines pos else [text]
  | none => d.lines pos

/-- One property of the element at `pos`. -/
def readProperty (d : Document) (pos : ℕ) (token : Token) (r : ExtractedRecipe) (property : Text) : ExtractedRecipe :=
  if isName property then if r.name = [] then { r with name := valueAt d pos token } else r
  else if isIngredient property then
    if valueAt d pos token = [] then r else { r with ingredients := r.ingredients ++ [valueAt d pos token] }
  else if isInstructions property then { r with steps := r.steps ++ stepsAt d pos token }
  else r

/-- The loop of `read_item`. -/
def readFrom (d : Document) (hi pos : ℕ) (r : ExtractedRecipe) : ExtractedRecipe :=
  if pos < hi then
    match d.tokens[pos]? with
    | none => r
    | some token =>
      if carries token then
        readFrom d hi (max (d.endOf pos) pos + 1) ((properties token).foldl (readProperty d pos token) r)
      else readFrom d hi (pos + 1) r
  else r
  termination_by hi - pos

def empty : ExtractedRecipe := ⟨[], [], []⟩

/-- A recipe that gives something. -/
def something (r : ExtractedRecipe) : Option ExtractedRecipe := if r = empty then none else some r

def readItem (d : Document) (item : ℕ) : Option ExtractedRecipe :=
  something (readFrom d (d.inside item).2 (d.inside item).1 empty)

/-- The loop of `extract_recipe`. -/
def extractFrom (d : Document) (pos : ℕ) : Option ExtractedRecipe :=
  if pos < d.tokens.length then
    if d.tokens[pos]?.any isRecipeItem then
      match readItem d pos with
      | some recipe => some recipe
      | none => extractFrom d (max (d.endOf pos) pos + 1)
    else extractFrom d (pos + 1)
  else none
  termination_by d.tokens.length - pos

def extractRecipe (html : Text) : Option ExtractedRecipe := extractFrom (Document.parse html) 0

/-! ### What is read -/

def carriesAt (d : Document) (pos : ℕ) : Bool := d.tokens[pos]?.any carries

def recipeItemAt (d : Document) (pos : ℕ) : Bool := d.tokens[pos]?.any isRecipeItem

/-- The elements of an item whose properties `read_item` reads, as its loop comes to them. -/
def readAt (d : Document) (item : ℕ) : List ℕ := visit (carriesAt d) d.endOf (d.inside item).2 (d.inside item).1

/-- Up to the first that satisfies `p`. -/
def upTo (p : ℕ → Bool) : List ℕ → List ℕ
  | [] => []
  | a :: l => if p a then [a] else a :: upTo p l

/-- The items that `extract_recipe` reads, as its loop comes to them. -/
def itemsRead (d : Document) : List ℕ :=
  upTo (fun item => (readItem d item).isSome) (visit (recipeItemAt d) d.endOf d.tokens.length 0)

/-! ### What is to be read -/

/-- The elements of an item that carry properties or open an item, and are in no other that does. -/
def propertyElements (d : Document) (item : ℕ) : List ℕ :=
  outermost (carriesAt d) d.endOf (d.inside item).1 (d.inside item).2

/-- The `Recipe` items before `hi` that are in no other. -/
def recipeItems (d : Document) (hi : ℕ) : List ℕ := outermost (recipeItemAt d) d.endOf 0 hi

def tokenAt (d : Document) (pos : ℕ) : Token := d.tokens[pos]?.getD (.text [])

/-- The elements that have such a property. -/
def having (d : Document) (kind : Text → Bool) (elements : List ℕ) : List ℕ :=
  elements.filter fun pos => (properties (tokenAt d pos)).any kind

/-- What some elements give: the first name that is not empty, each ingredient that is not empty, and the steps. -/
def recipeOf (d : Document) (elements : List ℕ) : ExtractedRecipe where
  name := (((having d isName elements).map fun pos => valueAt d pos (tokenAt d pos)).find? (· ≠ [])).getD []
  ingredients := ((having d isIngredient elements).map fun pos => valueAt d pos (tokenAt d pos)).filter (· ≠ [])
  steps := (having d isInstructions elements).flatMap fun pos => stepsAt d pos (tokenAt d pos)

/-- What an item gives. -/
def recipeAt (d : Document) (item : ℕ) : Option ExtractedRecipe := something (recipeOf d (propertyElements d item))

/-- The first `Recipe` item that gives something. -/
structure First (d : Document) (item : ℕ) : Prop where
  mem : item ∈ recipeItems d d.tokens.length
  gives : recipeAt d item ≠ none
  before : ∀ r ∈ recipeItems d item, recipeAt d r = none

/-- The import of the first item that gives something misses no property. -/
structure MissesNothing (d : Document) (item : ℕ) : Prop where
  /-- It is read, and before it the items before it. -/
  items : itemsRead d = recipeItems d (item + 1)
  /-- Of each, its properties are read, in page order, and none of a nested item or property. -/
  elements : ∀ r ∈ recipeItems d (item + 1), readAt d r = propertyElements d r
  /-- The recipe is what they give, each once. -/
  recipe : extractFrom d 0 = recipeAt d item

/-- Nothing is passed over, and nothing given twice. -/
structure PassesNothing (d : Document) (item : ℕ) : Prop where
  items : ∀ r ∈ recipeItems d (item + 1), ∀ r' ∈ recipeItems d (item + 1), r < r' → d.endOf r ≠ r'
  elements : ∀ r ∈ recipeItems d (item + 1), ∀ e ∈ propertyElements d r, ∀ e' ∈ propertyElements d r, e < e' →
    d.endOf e ≠ e'
  ingredients : ∀ e ∈ propertyElements d item, valueAt d e (tokenAt d e) ≠ [] →
    (properties (tokenAt d e)).countP isIngredient ≤ 1
  steps : ∀ e ∈ propertyElements d item, stepsAt d e (tokenAt d e) ≠ [] →
    (properties (tokenAt d e)).countP isInstructions ≤ 1

/-! ### The walks -/

section Walks

variable {d : Document} {hi pos item : ℕ} {p : ℕ → Bool} {l rest : List ℕ} {a : ℕ}

/-- The properties of one element. -/
def readElement (d : Document) (r : ExtractedRecipe) (pos : ℕ) : ExtractedRecipe :=
  (properties (tokenAt d pos)).foldl (readProperty d pos (tokenAt d pos)) r

theorem readFrom_eq (hhi : hi ≤ d.tokens.length) (pos : ℕ) (r : ExtractedRecipe) :
    readFrom d hi pos r = (visit (carriesAt d) d.endOf hi pos).foldl (readElement d) r := by
  induction pos using visit_induction (carriesAt d) d.endOf hi generalizing r with
  | hend pos hpos =>
    rw [readFrom, if_neg (Nat.not_lt.mpr hpos), visit_end hpos]
    rfl
  | hmarked pos hpos h ih =>
    have hget := List.getElem?_eq_getElem (hpos.trans_le hhi)
    have hcarries : carries d.tokens[pos] = true := by rwa [carriesAt, hget, Option.any_some] at h
    have hread : readElement d r pos =
        (properties d.tokens[pos]).foldl (readProperty d pos d.tokens[pos]) r := by
      rw [readElement, tokenAt, hget, Option.getD_some]
    rw [visit_marked hpos h, List.foldl_cons, ← ih, hread, readFrom, if_pos hpos, hget]
    exact if_pos hcarries
  | hunmarked pos hpos h ih =>
    have hget := List.getElem?_eq_getElem (hpos.trans_le hhi)
    have hcarries : carries d.tokens[pos] = false := by rwa [carriesAt, hget, Option.any_some] at h
    rw [visit_unmarked hpos h, ← ih, readFrom, if_pos hpos, hget]
    exact if_neg (by rw [hcarries]; exact Bool.false_ne_true)

theorem readItem_eq (hend : d.endOf item ≤ d.tokens.length) :
    readItem d item = something ((readAt d item).foldl (readElement d) empty) := by
  have hread := readFrom_eq hend (d.inside item).1 empty
  exact congrArg something hread

/-- The first item read that gives something is the import's. -/
theorem extractFrom_eq (d : Document) (pos : ℕ) :
    extractFrom d pos = (visit (recipeItemAt d) d.endOf d.tokens.length pos).findSome? (readItem d) := by
  induction pos using visit_induction (recipeItemAt d) d.endOf d.tokens.length with
  | hend pos hpos =>
    rw [extractFrom, if_neg (Nat.not_lt.mpr hpos), visit_end hpos]
    rfl
  | hmarked pos hpos h ih =>
    have hitem : d.tokens[pos]?.any isRecipeItem = true := h
    rw [visit_marked hpos h, List.findSome?_cons, ← ih, extractFrom, if_pos hpos, if_pos hitem]
    cases readItem d pos with
    | none => rfl
    | some recipe => rfl
  | hunmarked pos hpos h ih =>
    have hitem : d.tokens[pos]?.any isRecipeItem = false := h
    rw [visit_unmarked hpos h, ← ih, extractFrom, if_pos hpos, if_neg (by rw [hitem]; exact Bool.false_ne_true)]

theorem upTo_append (h : ∀ b ∈ l, p b = false) (ha : p a = true) (rest : List ℕ) :
    upTo p (l ++ a :: rest) = l ++ [a] := by
  induction l with
  | nil => rw [List.nil_append, upTo, if_pos ha, List.nil_append]
  | cons b l ih =>
    rw [List.forall_mem_cons] at h
    rw [List.cons_append, upTo, if_neg (by rw [h.1]; exact Bool.false_ne_true), ih h.2]
    rfl

/-- What ends the list satisfies `p`, or all of it was gone through, and nothing else does. -/
theorem upTo_eq_concat {l' : List ℕ} (h : upTo p l = l' ++ [a]) :
    (∃ rest, l = l' ++ a :: rest) ∧ ∀ b ∈ l', p b = false := by
  induction l generalizing l' with
  | nil => exact absurd h.symm (List.append_ne_nil_of_right_ne_nil _ (List.cons_ne_nil _ _))
  | cons b l ih =>
    rw [upTo] at h
    split at h
    · cases l' with
      | nil =>
        rw [(List.cons.inj h).1]
        exact ⟨⟨l, rfl⟩, fun b hb => absurd hb List.not_mem_nil⟩
      | cons c l' => exact absurd (List.cons.inj h).2.symm (List.append_ne_nil_of_right_ne_nil _ (List.cons_ne_nil _ _))
    · rename_i hb
      cases l' with
      | nil =>
        obtain ⟨rfl, hnil⟩ := List.cons.inj h
        cases l with
        | nil => exact ⟨⟨[], rfl⟩, fun b hb => absurd hb List.not_mem_nil⟩
        | cons c l =>
          rw [upTo] at hnil
          split at hnil
          · cases hnil
          · cases hnil
      | cons c l' =>
        obtain ⟨rfl, hrest⟩ := List.cons.inj h
        obtain ⟨⟨rest, rfl⟩, hall⟩ := ih hrest
        exact ⟨⟨rest, rfl⟩, List.forall_mem_cons.mpr ⟨Bool.eq_false_iff.mpr hb, hall⟩⟩

end Walks

/-! ### What the elements give -/

section Gives

variable {d : Document} {pos : ℕ} {token : Token} {elements : List ℕ} {r : ExtractedRecipe}

/-- A value, unless it is empty. -/
def nonEmpty (value : Text) : List Text := [value].filter (· ≠ [])

theorem not_isIngredient_of_isName {property : Text} (h : isName property = true) :
    isIngredient property = false ∧ isInstructions property = false := by
  obtain rfl : property = "name".toList := of_decide_eq_true h
  exact ⟨by decide, by decide⟩

theorem not_isInstructions_of_isIngredient {property : Text} (h : isIngredient property = true) :
    isInstructions property = false := by
  rw [isIngredient, Bool.or_eq_true, decide_eq_true_iff, decide_eq_true_iff] at h
  rcases h with rfl | rfl
  · decide
  · decide

/-- What one property adds. -/
theorem readProperty_eq (r : ExtractedRecipe) (property : Text) : readProperty d pos token r property =
    { name := if r.name = [] ∧ isName property then valueAt d pos token else r.name
      ingredients := r.ingredients ++ if isIngredient property then nonEmpty (valueAt d pos token) else []
      steps := r.steps ++ if isInstructions property then stepsAt d pos token else [] } := by
  rw [readProperty]
  split
  · rename_i hname
    obtain ⟨hingredient, hinstructions⟩ := not_isIngredient_of_isName hname
    rw [hname, hingredient, hinstructions]
    by_cases hr : r.name = []
    · simp [hr]
    · simp [hr]
  · rename_i hname
    split
    · rename_i hingredient
      rw [not_isInstructions_of_isIngredient hingredient]
      by_cases hvalue : valueAt d pos token = []
      · simp [hname, hvalue, nonEmpty]
      · simp [hname, hvalue, nonEmpty]
    · split
      · simp [hname]
      · simp [hname]

theorem readElement_name (r : ExtractedRecipe) (pos : ℕ) : (readElement d r pos).name =
    if r.name = [] ∧ (properties (tokenAt d pos)).any isName then valueAt d pos (tokenAt d pos) else r.name := by
  rw [readElement]
  induction properties (tokenAt d pos) generalizing r with
  | nil => simp
  | cons property rest ih =>
    rw [List.foldl_cons, ih, readProperty_eq, List.any_cons]
    dsimp only
    by_cases hr : r.name = []
    · cases isName property with
      | true =>
        by_cases hvalue : valueAt d pos (tokenAt d pos) = []
        · simp [hr, hvalue]
        · simp [hr, hvalue]
      | false => simp [hr]
    · simp [hr]

theorem readElement_ingredients (r : ExtractedRecipe) (pos : ℕ) : (readElement d r pos).ingredients =
    r.ingredients ++ (List.replicate ((properties (tokenAt d pos)).countP isIngredient)
      (nonEmpty (valueAt d pos (tokenAt d pos)))).flatten := by
  rw [readElement]
  induction properties (tokenAt d pos) generalizing r with
  | nil => exact (List.append_nil _).symm
  | cons property rest ih =>
    rw [List.foldl_cons, ih, readProperty_eq, List.countP_cons]
    dsimp only
    cases isIngredient property with
    | true =>
      rw [if_pos rfl, if_pos rfl, List.append_assoc, List.replicate_succ, List.flatten_cons]
    | false => rw [if_neg Bool.false_ne_true, if_neg Bool.false_ne_true, List.append_nil, Nat.add_zero]

theorem readElement_steps (r : ExtractedRecipe) (pos : ℕ) : (readElement d r pos).steps =
    r.steps ++ (List.replicate ((properties (tokenAt d pos)).countP isInstructions)
      (stepsAt d pos (tokenAt d pos))).flatten := by
  rw [readElement]
  induction properties (tokenAt d pos) generalizing r with
  | nil => exact (List.append_nil _).symm
  | cons property rest ih =>
    rw [List.foldl_cons, ih, readProperty_eq, List.countP_cons]
    dsimp only
    cases isInstructions property with
    | true =>
      rw [if_pos rfl, if_pos rfl, List.append_assoc, List.replicate_succ, List.flatten_cons]
    | false => rw [if_neg Bool.false_ne_true, if_neg Bool.false_ne_true, List.append_nil, Nat.add_zero]

/-- A part, as often as it stands. -/
def times {α : Type} (n : ℕ) (part : List α) : List α := (List.replicate n part).flatten

/-- A part that stands, once. -/
def once {α : Type} (n : ℕ) (part : List α) : List α := if 0 < n then part else []

section Times

variable {α : Type} {n : ℕ} {part : List α}

theorem length_times (n : ℕ) (part : List α) : (times n part).length = n * part.length := by
  rw [times, List.length_flatten, List.map_replicate, List.sum_replicate_nat]

theorem length_once_le (n : ℕ) (part : List α) : (once n part).length ≤ (times n part).length := by
  rw [length_times, once]
  split
  · rename_i hn
    exact Nat.le_mul_of_pos_left _ hn
  · exact Nat.zero_le _

theorem times_eq_once_iff : times n part = once n part ↔ (part ≠ [] → n ≤ 1) := by
  constructor
  · intro h hpart
    have hlength := congrArg List.length h
    have hpos := List.length_pos_of_ne_nil hpart
    have hle : (once n part).length ≤ part.length := by
      rw [once]
      split
      · exact le_rfl
      · exact Nat.zero_le _
    rw [length_times] at hlength
    by_contra hn
    have hmore : 2 * part.length ≤ n * part.length := Nat.mul_le_mul_right _ (by omega)
    omega
  · intro h
    by_cases hpart : part = []
    · rw [hpart, times, once, ite_self, List.flatten_replicate_nil]
    · obtain rfl | rfl := Nat.le_one_iff_eq_zero_or_eq_one.mp (h hpart)
      · rfl
      · exact List.append_nil part

theorem times_eq_nil_iff : times n part = [] ↔ once n part = [] := by
  rw [← List.length_eq_zero_iff, ← List.length_eq_zero_iff, length_times, Nat.mul_eq_zero, once]
  split
  · rename_i hn
    exact ⟨fun h => h.resolve_left hn.ne', .inr⟩
  · rename_i hn
    exact ⟨fun _ => rfl, fun _ => .inl (Nat.eq_zero_of_not_pos hn)⟩

/-- Some parts stand once each, unless one that is not empty stands twice. -/
theorem flatMap_times_iff (count : ℕ → ℕ) (part : ℕ → List α) (elements : List ℕ) :
    elements.flatMap (fun e => times (count e) (part e)) = elements.flatMap (fun e => once (count e) (part e)) ↔
      ∀ e ∈ elements, part e ≠ [] → count e ≤ 1 := by
  have hle : ∀ l : List ℕ, (l.flatMap fun e => once (count e) (part e)).length ≤
      (l.flatMap fun e => times (count e) (part e)).length := by
    intro l
    induction l with
    | nil => exact le_rfl
    | cons e l ih =>
      rw [List.flatMap_cons, List.flatMap_cons, List.length_append, List.length_append]
      exact Nat.add_le_add (length_once_le _ _) ih
  induction elements with
  | nil => simp
  | cons e elements ih =>
    rw [List.flatMap_cons, List.flatMap_cons, List.forall_mem_cons]
    refine Iff.trans ?_ (and_congr times_eq_once_iff ih)
    constructor
    · intro h
      have hlength := congrArg List.length h
      rw [List.length_append, List.length_append] at hlength
      have hfirst := length_once_le (count e) (part e)
      have hrest := hle elements
      exact List.append_inj h (by omega)
    · rintro ⟨hfirst, hrest⟩
      rw [hfirst, hrest]

end Times

theorem foldl_readElement_name (elements : List ℕ) (r : ExtractedRecipe) :
    (elements.foldl (readElement d) r).name = if r.name = [] then (recipeOf d elements).name else r.name := by
  induction elements generalizing r with
  | nil =>
    have hnone : (recipeOf d []).name = [] := rfl
    rw [List.foldl_nil, hnone]
    split
    · assumption
    · rfl
  | cons e elements ih =>
    rw [List.foldl_cons, ih, readElement_name]
    by_cases hr : r.name = []
    · cases hname : (properties (tokenAt d e)).any isName with
      | true =>
        by_cases hvalue : valueAt d e (tokenAt d e) = []
        · simp [hr, hname, hvalue, recipeOf, having]
        · simp [hr, hname, hvalue, recipeOf, having]
      | false => simp [hr, hname, recipeOf, having]
    · simp [hr]

theorem foldl_readElement_ingredients (elements : List ℕ) (r : ExtractedRecipe) :
    (elements.foldl (readElement d) r).ingredients = r.ingredients ++ elements.flatMap fun e =>
      times ((properties (tokenAt d e)).countP isIngredient) (nonEmpty (valueAt d e (tokenAt d e))) := by
  induction elements generalizing r with
  | nil => exact (List.append_nil _).symm
  | cons e elements ih => rw [List.foldl_cons, ih, readElement_ingredients, List.flatMap_cons, List.append_assoc, times]

theorem foldl_readElement_steps (elements : List ℕ) (r : ExtractedRecipe) :
    (elements.foldl (readElement d) r).steps = r.steps ++ elements.flatMap fun e =>
      times ((properties (tokenAt d e)).countP isInstructions) (stepsAt d e (tokenAt d e)) := by
  induction elements generalizing r with
  | nil => exact (List.append_nil _).symm
  | cons e elements ih => rw [List.foldl_cons, ih, readElement_steps, List.flatMap_cons, List.append_assoc, times]

/-- What the elements that have a property give, once each. -/
theorem flatMap_having {α : Type} (kind : Text → Bool) (part : ℕ → List α) (elements : List ℕ) :
    (having d kind elements).flatMap part =
      elements.flatMap fun e => once ((properties (tokenAt d e)).countP kind) (part e) := by
  induction elements with
  | nil => rfl
  | cons e elements ih =>
    rw [List.flatMap_cons, ← ih, having, List.filter_cons, once]
    by_cases hkind : (properties (tokenAt d e)).any kind = true
    · have hpos : 0 < (properties (tokenAt d e)).countP kind := List.countP_pos_iff.mpr (List.any_eq_true.mp hkind)
      rw [if_pos hkind, if_pos hpos, List.flatMap_cons]
      rfl
    · have hzero : ¬ 0 < (properties (tokenAt d e)).countP kind := fun hpos =>
        hkind (List.any_eq_true.mpr (List.countP_pos_iff.mp hpos))
      rw [if_neg hkind, if_neg hzero]
      rfl

theorem recipeOf_ingredients (elements : List ℕ) : (recipeOf d elements).ingredients = elements.flatMap fun e =>
    once ((properties (tokenAt d e)).countP isIngredient) (nonEmpty (valueAt d e (tokenAt d e))) := by
  rw [← flatMap_having, recipeOf]
  dsimp only
  induction having d isIngredient elements with
  | nil => rfl
  | cons e rest ih =>
    rw [List.flatMap_cons, List.map_cons, ← ih, nonEmpty, ← List.filter_append]
    rfl

theorem recipeOf_steps (elements : List ℕ) : (recipeOf d elements).steps = elements.flatMap fun e =>
    once ((properties (tokenAt d e)).countP isInstructions) (stepsAt d e (tokenAt d e)) :=
  flatMap_having isInstructions _ elements

theorem nonEmpty_eq_nil_iff {value : Text} : nonEmpty value = [] ↔ value = [] := by
  rw [nonEmpty, List.filter_eq_nil_iff, List.forall_mem_singleton, decide_eq_true_iff, not_not]

/-- The elements give their recipe, unless one gives a part of it twice. -/
theorem foldl_readElement_iff (elements : List ℕ) :
    elements.foldl (readElement d) empty = recipeOf d elements ↔
      (∀ e ∈ elements, valueAt d e (tokenAt d e) ≠ [] → (properties (tokenAt d e)).countP isIngredient ≤ 1) ∧
        ∀ e ∈ elements, stepsAt d e (tokenAt d e) ≠ [] → (properties (tokenAt d e)).countP isInstructions ≤ 1 := by
  have hname : (elements.foldl (readElement d) empty).name = (recipeOf d elements).name :=
    (foldl_readElement_name elements empty).trans (if_pos rfl)
  have hingredients := foldl_readElement_ingredients (d := d) elements empty
  have hsteps := foldl_readElement_steps (d := d) elements empty
  rw [ExtractedRecipe.ext_iff, hingredients, hsteps, recipeOf_ingredients, recipeOf_steps]
  have hfirst := flatMap_times_iff (fun e => (properties (tokenAt d e)).countP isIngredient)
    (fun e => nonEmpty (valueAt d e (tokenAt d e))) elements
  have hsecond := flatMap_times_iff (fun e => (properties (tokenAt d e)).countP isInstructions)
    (fun e => stepsAt d e (tokenAt d e)) elements
  simp only [ne_eq, nonEmpty_eq_nil_iff] at hfirst
  constructor
  · rintro ⟨-, hone, htwo⟩
    exact ⟨hfirst.mp hone, hsecond.mp htwo⟩
  · rintro ⟨hone, htwo⟩
    exact ⟨hname, hfirst.mpr hone, hsecond.mpr htwo⟩

/-- They give something if their recipe does. -/
theorem foldl_readElement_eq_empty_iff (elements : List ℕ) :
    elements.foldl (readElement d) empty = empty ↔ recipeOf d elements = empty := by
  have hname : (elements.foldl (readElement d) empty).name = (recipeOf d elements).name :=
    (foldl_readElement_name elements empty).trans (if_pos rfl)
  have hingredients := foldl_readElement_ingredients (d := d) elements empty
  have hsteps := foldl_readElement_steps (d := d) elements empty
  rw [ExtractedRecipe.ext_iff, ExtractedRecipe.ext_iff, hname, hingredients, hsteps, recipeOf_ingredients,
    recipeOf_steps]
  have hiff : ∀ {α : Type} (count : ℕ → ℕ) (part : ℕ → List α),
      elements.flatMap (fun e => times (count e) (part e)) = [] ↔
        elements.flatMap (fun e => once (count e) (part e)) = [] := by
    intro α count part
    simp only [List.flatMap_eq_nil_iff, times_eq_nil_iff]
  exact and_congr_right fun _ => and_congr (hiff _ _) (hiff _ _)

end Gives


/-! ### The walks of a page -/

section Page

variable {tokens : List Token} {s item : ℕ}

theorem start_of_attributeAt {token : Token} {name : String} (h : (attributeAt token name).isSome = true) :
    ∃ element attributes, token = .start element attributes := by
  cases token with
  | start element attributes => exact ⟨element, attributes, rfl⟩
  | endTag _ => cases h
  | text _ => cases h

theorem element_of_carriesAt (h : carriesAt (documentOf tokens) s = true) :
    ∃ name, (documentOf tokens).ElementAt s name := by
  obtain ⟨token, htoken, hcarries⟩ := (Option.any_eq_true _ _).mp h
  have hstart : ∃ element attributes, token = .start element attributes := by
    rcases Bool.or_eq_true_iff.mp hcarries with hcarries | hcarries
    · exact start_of_attributeAt hcarries
    · exact start_of_attributeAt hcarries
  obtain ⟨element, attributes, rfl⟩ := hstart
  exact ⟨element, attributes, htoken⟩

theorem element_of_recipeItemAt (h : recipeItemAt (documentOf tokens) s = true) :
    ∃ name, (documentOf tokens).ElementAt s name := by
  obtain ⟨token, htoken, hitem⟩ := (Option.any_eq_true _ _).mp h
  obtain ⟨element, attributes, rfl⟩ := start_of_attributeAt (Bool.and_eq_true_iff.mp hitem).1
  exact ⟨element, attributes, htoken⟩

theorem endOf_bounds (h : ∃ name, (documentOf tokens).ElementAt s name) :
    s ≤ (documentOf tokens).endOf s ∧ (documentOf tokens).endOf s ≤ tokens.length := by
  obtain ⟨name, h⟩ := h
  have hlt : s < tokens.length := h.lt
  by_cases hvoid : name ∈ VOID
  · rw [(nested_documentOf tokens).void s name h hvoid]
    exact ⟨le_rfl, hlt.le⟩
  · obtain ⟨hle, hend⟩ := (nested_documentOf tokens).extent s name h hvoid
    exact ⟨by omega, hend⟩

/-- An item's properties are all read, unless one ends where another starts. -/
theorem readAt_eq_iff : readAt (documentOf tokens) item = propertyElements (documentOf tokens) item ↔
    ∀ e ∈ propertyElements (documentOf tokens) item, ∀ e' ∈ propertyElements (documentOf tokens) item, e < e' →
      (documentOf tokens).endOf e ≠ e' :=
  visit_eq_outermost_iff (fun _ h => (endOf_bounds (element_of_carriesAt h)).1) fun _ _ h h' =>
    nested_of_lt (element_of_carriesAt h) (element_of_carriesAt h')

/-- So are the items. -/
theorem visit_recipeItems_iff {hi : ℕ} :
    visit (recipeItemAt (documentOf tokens)) (documentOf tokens).endOf hi 0 = recipeItems (documentOf tokens) hi ↔
      ∀ r ∈ recipeItems (documentOf tokens) hi, ∀ r' ∈ recipeItems (documentOf tokens) hi, r < r' →
        (documentOf tokens).endOf r ≠ r' :=
  visit_eq_outermost_iff (fun _ h => (endOf_bounds (element_of_recipeItemAt h)).1) fun _ _ h h' =>
    nested_of_lt (element_of_recipeItemAt h) (element_of_recipeItemAt h')

theorem something_eq_none_iff {r : ExtractedRecipe} : something r = none ↔ r = empty := by
  rw [something]
  split
  · rename_i hempty
    exact iff_of_true rfl hempty
  · rename_i hempty
    exact iff_of_false (Option.some_ne_none _) hempty

theorem something_of_ne {r : ExtractedRecipe} (h : r ≠ empty) : something r = some r := if_neg h

/-- Of an item whose properties are all read. -/
theorem readItem_of_readAt (hitem : recipeItemAt (documentOf tokens) item = true)
    (h : readAt (documentOf tokens) item = propertyElements (documentOf tokens) item) :
    readItem (documentOf tokens) item =
      something ((propertyElements (documentOf tokens) item).foldl (readElement (documentOf tokens)) empty) := by
  rw [readItem_eq (endOf_bounds (element_of_recipeItemAt hitem)).2, h]

theorem readItem_eq_none_iff (hitem : recipeItemAt (documentOf tokens) item = true)
    (h : readAt (documentOf tokens) item = propertyElements (documentOf tokens) item) :
    readItem (documentOf tokens) item = none ↔ recipeAt (documentOf tokens) item = none := by
  rw [readItem_of_readAt hitem h, recipeAt, something_eq_none_iff, something_eq_none_iff,
    foldl_readElement_eq_empty_iff]

theorem extractFrom_of_visit {l rest : List ℕ} {recipe : ExtractedRecipe}
    (h : visit (recipeItemAt (documentOf tokens)) (documentOf tokens).endOf tokens.length 0 = l ++ item :: rest)
    (hbefore : ∀ r ∈ l, readItem (documentOf tokens) r = none)
    (hread : readItem (documentOf tokens) item = some recipe) :
    extractFrom (documentOf tokens) 0 = some recipe := by
  have hvisit := extractFrom_eq (documentOf tokens) 0
  have hlength : (documentOf tokens).tokens.length = tokens.length := rfl
  rw [hvisit, hlength, h, List.findSome?_append, List.findSome?_eq_none_iff.mpr hbefore, Option.none_or,
    List.findSome?_cons, hread]

end Page

section Import

variable {tokens : List Token} {item : ℕ}

/-- The items up to one that is to be read. -/
theorem First.split (h : First (documentOf tokens) item) :
    recipeItems (documentOf tokens) (item + 1) = recipeItems (documentOf tokens) item ++ [item] :=
  outermost_succ h.mem

theorem First.marked (h : First (documentOf tokens) item) : recipeItemAt (documentOf tokens) item = true ∧
    item < tokens.length := by
  obtain ⟨-, hlt, hitem, -⟩ := mem_outermost.mp h.mem
  exact ⟨hitem, hlt⟩

/-- The items before it give nothing, read as they are to be. -/
theorem First.readItem_before (h : First (documentOf tokens) item)
    (helements : ∀ r ∈ recipeItems (documentOf tokens) (item + 1),
      readAt (documentOf tokens) r = propertyElements (documentOf tokens) r) :
    ∀ r ∈ recipeItems (documentOf tokens) item, readItem (documentOf tokens) r = none := by
  intro r hr
  have hin : r ∈ recipeItems (documentOf tokens) (item + 1) := by
    rw [h.split]
    exact List.mem_append_left _ hr
  have hmark : recipeItemAt (documentOf tokens) r = true := (mem_outermost.mp hr).2.2.1
  exact (readItem_eq_none_iff hmark (helements r hin)).mpr (h.before r hr)

/-- It is read as what its elements give, each as often as it lists it. -/
theorem First.readItem_eq (h : First (documentOf tokens) item)
    (hread : readAt (documentOf tokens) item = propertyElements (documentOf tokens) item) :
    readItem (documentOf tokens) item =
      some ((propertyElements (documentOf tokens) item).foldl (readElement (documentOf tokens)) empty) := by
  have hsome := mt (readItem_eq_none_iff h.marked.1 hread).mp h.gives
  rw [readItem_of_readAt h.marked.1 hread] at hsome ⊢
  exact something_of_ne (mt something_eq_none_iff.mpr hsome)

theorem First.recipeAt_eq (h : First (documentOf tokens) item) : recipeAt (documentOf tokens) item =
    some (recipeOf (documentOf tokens) (propertyElements (documentOf tokens) item)) :=
  something_of_ne (mt something_eq_none_iff.mpr h.gives)

theorem First.missesNothing_iff (h : First (documentOf tokens) item) :
    MissesNothing (documentOf tokens) item ↔ PassesNothing (documentOf tokens) item := by
  have hin : item ∈ recipeItems (documentOf tokens) (item + 1) := by
    rw [h.split]
    exact List.mem_append_right _ (List.mem_singleton_self item)
  constructor
  · intro hmisses
    have hread := hmisses.elements item hin
    obtain ⟨⟨rest', hvisit⟩, -⟩ := upTo_eq_concat (hmisses.items.trans h.split)
    have hvisit' : visit (recipeItemAt (documentOf tokens)) (documentOf tokens).endOf (item + 1) 0 =
        recipeItems (documentOf tokens) (item + 1) := (visit_succ h.marked.2 hvisit).trans h.split.symm
    have hbefore := h.readItem_before hmisses.elements
    have hrecipe := hmisses.recipe
    rw [extractFrom_of_visit hvisit hbefore (h.readItem_eq hread), h.recipeAt_eq, Option.some_inj,
      foldl_readElement_iff] at hrecipe
    exact {
      items := visit_recipeItems_iff.mp hvisit'
      elements := fun r hr => readAt_eq_iff.mp (hmisses.elements r hr)
      ingredients := hrecipe.1
      steps := hrecipe.2
    }
  · intro hpasses
    have hvisit := visit_recipeItems_iff.mpr hpasses.items
    obtain ⟨rest, hrest, -⟩ := visit_append h.marked.2 0
    rw [hvisit, h.split, List.append_assoc, List.singleton_append] at hrest
    have helements : ∀ r ∈ recipeItems (documentOf tokens) (item + 1),
        readAt (documentOf tokens) r = propertyElements (documentOf tokens) r := fun r hr =>
      readAt_eq_iff.mpr (hpasses.elements r hr)
    have hbefore := h.readItem_before helements
    have hread := h.readItem_eq (helements item hin)
    have hsome : (readItem (documentOf tokens) item).isSome = true := by
      rw [hread]
      rfl
    have hnone : ∀ r ∈ recipeItems (documentOf tokens) item, (readItem (documentOf tokens) r).isSome = false := by
      intro r hr
      rw [hbefore r hr]
      rfl
    have hlength : (documentOf tokens).tokens.length = tokens.length := rfl
    exact {
      items := by rw [itemsRead, hlength, hrest, upTo_append hnone hsome, h.split]
      elements := helements
      recipe := by
        rw [extractFrom_of_visit hrest hbefore hread, h.recipeAt_eq, Option.some_inj, foldl_readElement_iff]
        exact ⟨hpasses.ingredients, hpasses.steps⟩
    }

end Import

/-- The import misses no property exactly when it passes over none and gives none twice. -/
theorem import_misses_nothing_iff (html : Text) (item : ℕ) (h : First (Document.parse html) item) :
    MissesNothing (Document.parse html) item ↔ PassesNothing (Document.parse html) item :=
  h.missesNothing_iff

/-- The first ingredient closed by its end tag, the second by that of its list. -/
theorem import_misses_nothing_closed : MissesNothing (Document.parse
    "<ul itemscope itemtype=Recipe><li itemprop=ingredients>sel</li><li itemprop=ingredients>eau</ul>".toList) 0 := by
  have hfirst : First (Document.parse
      "<ul itemscope itemtype=Recipe><li itemprop=ingredients>sel</li><li itemprop=ingredients>eau</ul>".toList) 0 :=
    ⟨by decide +kernel, by decide +kernel, by decide +kernel⟩
  exact (import_misses_nothing_iff _ 0 hfirst).mpr
    ⟨by decide +kernel, by decide +kernel, by decide +kernel, by decide +kernel⟩

/-- The start tag of the second closes the first, and is passed over with it. -/
theorem import_misses_open_item : ¬ ∀ html item, First (Document.parse html) item →
    MissesNothing (Document.parse html) item := by
  intro h
  have hfirst : First (Document.parse
      "<ul itemscope itemtype=Recipe><li itemprop=ingredients>sel<li itemprop=ingredients>eau</ul>".toList) 0 :=
    ⟨by decide +kernel, by decide +kernel, by decide +kernel⟩
  have hpasses := hfirst.missesNothing_iff.mp (h _ 0 hfirst)
  exact absurd hpasses.elements (by decide +kernel)
end Home.Recipes.Microdata
