import ManageOurHome.Recipes.Resolved
import ManageOurHome.Recipes.Steps

/-! @src apps/api/src/recipes/taxonomy.rs | layer:proof | family:taxonomy

    A name is resolved to the same category however it is written: its case, its ligatures, its apostrophes, the articles
    before it, the words that link its own, and the plurals of its words of three letters or more.

        d'olive ~ d’olive ~ D'OLIVE          oeuf ~ Œufs          les pommes de terre ~ pomme terre -/

namespace Home.Recipes

open HttpGuard (splitOnce_char)
open Relation (ReflTransGen EqvGen)

variable {unicode : Unicode} {rows : List Row} {s u v w : Text} {c d : Char} {fold : Bool}

/-! ### Names written otherwise -/

/-- What is taken of the tables of Unicode: `a` to `z`, the ligatures, and that an accent does not change what a letter is. -/
structure Unicode.Tables (unicode : Unicode) : Prop where
  letter : ∀ c, 'a' ≤ c → c ≤ 'z' → unicode.lowercase c = [c] ∧ unicode.alphanumeric c = true
  ligature : ∀ c, c = 'œ' ∨ c = 'æ' → unicode.lowercase c = [c] ∧ unicode.alphanumeric c = true
  base : ∀ c, unicode.alphanumeric (foldAccent c) = unicode.alphanumeric c
  apostrophe : ∀ c, c = '\'' ∨ c = '’' → unicode.lowercase c = [c] ∧ unicode.alphanumeric c = false

/-- Spaces, hyphens, apostrophes and the like. -/
def Unicode.Separates (unicode : Unicode) (c : Char) : Prop := unicode.lowercase c = [c] ∧ unicode.alphanumeric c = false

/-- A word that takes a plural: three letters or more, a ligature being two, the last neither `s` nor `x`. -/
structure Unicode.Takes (unicode : Unicode) (w : Text) : Prop where
  letters : ∀ c ∈ spelling unicode false w, unicode.alphanumeric c = true
  length : 3 ≤ (spelling unicode false w).length
  last : ∀ c ∈ (spelling unicode false w).getLast?, c ≠ 's' ∧ c ≠ 'x'

/-- One name, and the same written otherwise in one place. -/
inductive Variant (unicode : Unicode) : Text → Text → Prop
  | case {s t : Text} (h : s.flatMap unicode.lowercase = t.flatMap unicode.lowercase) : Variant unicode s t
  | oe (u v : Text) : Variant unicode (u ++ 'œ' :: v) (u ++ 'o' :: 'e' :: v)
  | ae (u v : Text) : Variant unicode (u ++ 'æ' :: v) (u ++ 'a' :: 'e' :: v)
  | apostrophe (u v : Text) : Variant unicode (u ++ '\'' :: v) (u ++ '’' :: v)
  | separator (u v : Text) {c d : Char} (hc : unicode.Separates c) (hd : unicode.Separates d) :
    Variant unicode (u ++ c :: v) (u ++ d :: v)
  | before (v : Text) {c : Char} (hc : unicode.Separates c) : Variant unicode v (c :: v)
  | after (u : Text) {c : Char} (hc : unicode.Separates c) : Variant unicode u (u ++ [c])
  | link (u v : Text) {w : Text} {c d : Char} (hc : unicode.Separates c) (hw : w ∈ linkWords) (hd : unicode.Separates d) :
    Variant unicode (u ++ c :: v) (u ++ c :: (w ++ d :: v))
  | article (v : Text) {w : Text} {c : Char} (hw : w ∈ leadingArticles) (hc : unicode.Separates c) :
    Variant unicode v (w ++ c :: v)
  | plural (u v : Text) {w : Text} {c d e : Char} (hc : unicode.Separates c) (hw : unicode.Takes w) (he : e = 's' ∨ e = 'x')
    (hd : unicode.Separates d) : Variant unicode (u ++ c :: (w ++ d :: v)) (u ++ c :: ((w ++ [e]) ++ d :: v))

theorem spelling_append (u v : Text) : spelling unicode fold (u ++ v) = spelling unicode fold u ++ spelling unicode fold v := by
  rw [spelling, List.flatMap_append, List.flatMap_append]
  rfl

theorem spelling_cons (c : Char) (v : Text) :
    spelling unicode fold (c :: v) = spelling unicode fold [c] ++ spelling unicode fold v := spelling_append [c] v

theorem foldAccent_letter (ha : 'a' ≤ c) (hz : c ≤ 'z') : foldAccent c = c := by
  unfold foldAccent
  split <;> first | rfl | exact absurd hz (by decide)

theorem spelling_letter (h : unicode.Tables) (ha : 'a' ≤ c) (hz : c ≤ 'z') : spelling unicode fold [c] = [c] := by
  have hoe : c ≠ 'œ' := by rintro rfl; exact absurd hz (by decide)
  have hae : c ≠ 'æ' := by rintro rfl; exact absurd hz (by decide)
  have hspelled : spelled fold c = [c] := by
    rw [spelled, if_neg hoe, if_neg hae, foldAccent_letter ha hz]
    split <;> rfl
  rw [spelling, List.flatMap_singleton, (h.letter c ha hz).1, List.flatMap_singleton, hspelled]

theorem spelling_separator (fold : Bool) (h : unicode.Tables) (hc : unicode.Separates c) :
    ∃ d, spelling unicode fold [c] = [d] ∧ unicode.alphanumeric d = false := by
  have hne : ∀ d, d = 'œ' ∨ d = 'æ' → c ≠ d := by
    rintro d hd rfl
    exact Bool.false_ne_true (hc.2.symm.trans (h.ligature c hd).2)
  rw [spelling, List.flatMap_singleton, hc.1, List.flatMap_singleton, spelled, if_neg (hne _ (.inl rfl)),
    if_neg (hne _ (.inr rfl))]
  cases fold with
  | false => exact ⟨c, rfl, hc.2⟩
  | true => exact ⟨foldAccent c, rfl, (h.base c).trans hc.2⟩

/-- A separator parts the words. -/
theorem words_separated (h : unicode.Tables) (hc : unicode.Separates c) (u v : Text) :
    wordsOf unicode (spelling unicode fold (u ++ c :: v)) =
      wordsOf unicode (spelling unicode fold u) ++ wordsOf unicode (spelling unicode fold v) := by
  obtain ⟨d, hd, halnum⟩ := spelling_separator fold h hc
  rw [spelling_append, spelling_cons, hd, List.singleton_append, wordsOf, List.splitOnP_append_cons _ _ (by simp [halnum]),
    List.filter_append]
  rfl

theorem wordsOf_word (hne : w ≠ []) (halnum : ∀ c ∈ w, unicode.alphanumeric c = true) :
    wordsOf unicode w = if w ∈ linkWords then [] else [w] := by
  rw [wordsOf, List.splitOnP_eq_singleton fun c hc => by simp [halnum c hc]]
  split
  · rename_i hlink
    simp [hlink]
  · rename_i hlink
    simp [hlink, hne]

theorem spelling_letters (h : unicode.Tables) (hw : ∀ c ∈ w, 'a' ≤ c ∧ c ≤ 'z') : spelling unicode fold w = w := by
  induction w with
  | nil => rfl
  | cons c w ih =>
    obtain ⟨hc, hw⟩ := List.forall_mem_cons.mp hw
    rw [spelling_cons, spelling_letter h hc.1 hc.2, ih hw]
    rfl

theorem wordsOf_letters (h : unicode.Tables) (hne : w ≠ []) (hw : ∀ c ∈ w, 'a' ≤ c ∧ c ≤ 'z') :
    wordsOf unicode (spelling unicode fold w) = if w ∈ linkWords then [] else [w] := by
  rw [spelling_letters h hw]
  exact wordsOf_word hne fun c hc => (h.letter c (hw c hc).1 (hw c hc).2).2

theorem wordsOf_link (h : unicode.Tables) (hw : w ∈ linkWords) : wordsOf unicode (spelling unicode fold w) = [] := by
  have hletters : ∀ w ∈ linkWords, w ≠ [] ∧ ∀ c ∈ w, 'a' ≤ c ∧ c ≤ 'z' := by decide
  rw [wordsOf_letters h (hletters w hw).1 (hletters w hw).2, if_pos hw]

theorem wordsOf_article (h : unicode.Tables) (hw : w ∈ leadingArticles) :
    wordsOf unicode (spelling unicode fold w) = [w] := by
  have hletters : ∀ w ∈ leadingArticles, w ≠ [] ∧ w ∉ linkWords ∧ ∀ c ∈ w, 'a' ≤ c ∧ c ≤ 'z' := by decide
  obtain ⟨hne, hlink, halnum⟩ := hletters w hw
  rw [wordsOf_letters h hne halnum, if_neg hlink]

@[simp] theorem wordsOf_nil : wordsOf unicode [] = [] := by simp [wordsOf]

/-! ### Plurals -/

/-- Without its accents, a spelled name is its letters without theirs. -/
theorem spelling_true (s : Text) : spelling unicode true s = (spelling unicode false s).map foldAccent := by
  have hspelled : ∀ c, spelled true c = (spelled false c).map foldAccent := by
    intro c
    by_cases hoe : c = 'œ'
    · subst hoe
      rfl
    by_cases hae : c = 'æ'
    · subst hae
      rfl
    rw [spelled, spelled, if_neg hoe, if_neg hae, if_neg hoe, if_neg hae]
    rfl
  rw [spelling, spelling, List.map_flatMap]
  exact List.flatMap_congr fun c _ => hspelled c

theorem foldAccent_eq_iff (hd : d = 's' ∨ d = 'x') : foldAccent c = d ↔ c = d := by
  constructor
  · intro h
    unfold foldAccent at h
    split at h <;> first | exact h | (subst h; revert hd; decide)
  · rintro rfl
    rcases hd with rfl | rfl <;> rfl

/-- A word that takes a plural is its own singular, and that of its plural. -/
structure Stem (unicode : Unicode) (w : Text) : Prop where
  alnum : ∀ c ∈ w, unicode.alphanumeric c = true
  length : 3 ≤ w.length
  last : ∀ c ∈ w.getLast?, c ≠ 's' ∧ c ≠ 'x'

theorem Stem.ne_nil (hw : Stem unicode w) : w ≠ [] := by
  rintro rfl
  exact absurd hw.length (by decide)

theorem Unicode.Takes.stem (h : unicode.Tables) (hw : unicode.Takes w) : Stem unicode (spelling unicode fold w) := by
  cases fold with
  | false => exact ⟨hw.letters, hw.length, hw.last⟩
  | true =>
    rw [spelling_true]
    refine ⟨fun c hc => ?_, by rw [List.length_map]; exact hw.length, fun c hc => ?_⟩
    · obtain ⟨d, hd, rfl⟩ := List.mem_map.mp hc
      rw [h.base]
      exact hw.letters d hd
    · rw [List.getLast?_map] at hc
      obtain ⟨d, hd, rfl⟩ := Option.map_eq_some_iff.mp hc
      exact ⟨fun hs => (hw.last d hd).1 ((foldAccent_eq_iff (.inl rfl)).mp hs),
        fun hx => (hw.last d hd).2 ((foldAccent_eq_iff (.inr rfl)).mp hx)⟩

theorem singular_stem (hw : Stem unicode w) : singular w = w := by
  rw [singular, if_neg]
  rintro ⟨-, h | h⟩
  · exact (hw.last 's' h).1 rfl
  · exact (hw.last 'x' h).2 rfl

theorem singular_plural (hw : Stem unicode w) (he : c = 's' ∨ c = 'x') : singular (w ++ [c]) = w := by
  have hlength : 3 < (w ++ [c]).length := by
    rw [List.length_append, List.length_singleton]
    exact Nat.lt_succ_of_le hw.length
  have hlast : (w ++ [c]).getLast? = some 's' ∨ (w ++ [c]).getLast? = some 'x' := by
    rw [List.getLast?_concat]
    exact he.imp (congrArg some) (congrArg some)
  rw [singular, if_pos ⟨hlength, hlast⟩, List.dropLast_concat]

theorem not_mem_of_stem (hw : Stem unicode w) : w ∉ linkWords ∧ w ∉ leadingArticles := by
  have hshort : ∀ w, w ∈ linkWords ∨ w ∈ leadingArticles → w.length < 3 ∨ w.getLast? = some 's' := by
    simp only [linkWords, leadingArticles, List.mem_cons, List.not_mem_nil, or_false]
    rintro w ((rfl | rfl | rfl | rfl) | (rfl | rfl | rfl | rfl)) <;> decide
  have hnot : ¬(w ∈ linkWords ∨ w ∈ leadingArticles) := by
    intro h
    rcases hshort w h with h | h
    · exact absurd hw.length (Nat.not_le.mpr h)
    · exact (hw.last 's' h).1 rfl
  exact not_or.mp hnot

theorem not_mem_of_plural (hw : Stem unicode w) (c : Char) : w ++ [c] ∉ linkWords ∧ w ++ [c] ∉ leadingArticles := by
  have hshort : ∀ w, w ∈ linkWords ∨ w ∈ leadingArticles → w.length < 4 := by
    simp only [linkWords, leadingArticles, List.mem_cons, List.not_mem_nil, or_false]
    rintro w ((rfl | rfl | rfl | rfl) | (rfl | rfl | rfl | rfl)) <;> decide
  have hlength := hw.length
  have hnot : ¬(w ++ [c] ∈ linkWords ∨ w ++ [c] ∈ leadingArticles) := by
    intro h
    have := hshort _ h
    rw [List.length_append, List.length_singleton] at this
    omega
  exact not_or.mp hnot

theorem dropWhile_append_cons {p : Text → Bool} (hp : p w = false) (before after : List Text) :
    (before ++ w :: after).dropWhile p = before.dropWhile p ++ w :: after := by
  induction before with
  | nil => rw [List.nil_append, List.dropWhile_cons_of_neg (by simp [hp])]; rfl
  | cons u before ih =>
    rw [List.cons_append, List.dropWhile_cons, List.dropWhile_cons]
    split
    · exact ih
    · rfl

/-- The key of a name with a word that takes a plural. -/
theorem key_of_word (hword : w ∉ leadingArticles) (before after : List Text) :
    ((before ++ w :: after).dropWhile (· ∈ leadingArticles)).map singular =
      (before.dropWhile (· ∈ leadingArticles)).map singular ++ singular w :: after.map singular := by
  rw [dropWhile_append_cons (by simp [hword]), List.map_append, List.map_cons]

/-! ### The key of a name -/

theorem spelling_nil : spelling unicode fold [] = [] := rfl

theorem spelling_ligature (h : unicode.Tables) (hlig : c = 'œ' ∧ d = 'o' ∨ c = 'æ' ∧ d = 'a') (u v : Text) :
    spelling unicode fold (u ++ c :: v) = spelling unicode fold (u ++ d :: 'e' :: v) := by
  have hletters : spelling unicode fold [d, 'e'] = [d, 'e'] := by
    refine spelling_letters h ?_
    rcases hlig with ⟨-, rfl⟩ | ⟨-, rfl⟩ <;> decide
  have hligature : spelling unicode fold [c] = [d, 'e'] := by
    rw [spelling, List.flatMap_singleton, (h.ligature c (hlig.imp And.left And.left)).1, List.flatMap_singleton]
    rcases hlig with ⟨rfl, rfl⟩ | ⟨rfl, rfl⟩ <;> rfl
  rw [spelling_append, spelling_cons, hligature, spelling_append, show d :: 'e' :: v = [d, 'e'] ++ v from rfl,
    spelling_append, hletters]

/-- However a name is written, its keys are the same. -/
theorem normalize_variant (h : unicode.Tables) (hvariant : Variant unicode s v) :
    normalize unicode s fold = normalize unicode v fold := by
  have hkey : ∀ {s v : Text}, wordsOf unicode (spelling unicode fold s) = wordsOf unicode (spelling unicode fold v) →
      normalize unicode s fold = normalize unicode v fold := by
    intro s v hwords
    rw [normalize, hwords]
    rfl
  cases hvariant with
  | case hcase =>
    refine hkey ?_
    rw [spelling, hcase]
    rfl
  | oe u v => exact hkey (congrArg _ (spelling_ligature h (.inl ⟨rfl, rfl⟩) u v))
  | ae u v => exact hkey (congrArg _ (spelling_ligature h (.inr ⟨rfl, rfl⟩) u v))
  | apostrophe u v =>
    refine hkey ?_
    rw [words_separated h (h.apostrophe _ (.inl rfl)), words_separated h (h.apostrophe _ (.inr rfl))]
  | separator u v hc hd => exact hkey (by rw [words_separated h hc, words_separated h hd])
  | before _ hc =>
    refine hkey ?_
    rw [← List.nil_append (_ :: s), words_separated h hc, spelling_nil, wordsOf_nil, List.nil_append]
  | after _ hc =>
    refine hkey ?_
    rw [words_separated h hc, spelling_nil, wordsOf_nil, List.append_nil]
  | link u v hc hw hd =>
    refine hkey ?_
    rw [words_separated h hc, words_separated h hc, words_separated h hd, wordsOf_link h hw, List.nil_append]
  | article _ hw hc =>
    rw [normalize, normalize, words_separated h hc, wordsOf_article h hw, List.singleton_append,
      List.dropWhile_cons_of_pos (by simp [hw])]
  | @plural u v w _ _ e hc hw he hd =>
    have hstem : Stem unicode (spelling unicode fold w) := hw.stem h
    have hwords : wordsOf unicode (spelling unicode fold w) = [spelling unicode fold w] := by
      rw [wordsOf_word hstem.ne_nil hstem.alnum, if_neg (not_mem_of_stem hstem).1]
    have hplural : wordsOf unicode (spelling unicode fold (w ++ [e])) = [spelling unicode fold w ++ [e]] := by
      have hletter : 'a' ≤ e ∧ e ≤ 'z' := by rcases he with rfl | rfl <;> decide
      rw [spelling_append, spelling_letter h hletter.1 hletter.2, wordsOf_word (by simp), if_neg (not_mem_of_plural hstem e).1]
      intro c hc
      rcases List.mem_append.mp hc with hc | hc
      · exact hstem.alnum c hc
      · rw [List.mem_singleton.mp hc]
        exact (h.letter e hletter.1 hletter.2).2
    rw [normalize, normalize, words_separated h hc, words_separated h hd, hwords, words_separated h hc,
      words_separated h hd, hplural, List.singleton_append, List.singleton_append, key_of_word (not_mem_of_stem hstem).2,
      key_of_word (not_mem_of_plural hstem e).2, singular_stem hstem, singular_plural hstem he]

theorem normalize_variants (h : unicode.Tables) (hvariant : EqvGen (Variant unicode) s v) :
    normalize unicode s fold = normalize unicode v fold := by
  induction hvariant with
  | rel _ _ hstep => exact normalize_variant h hstep
  | refl => rfl
  | symm _ _ _ ih => exact ih.symm
  | trans _ _ _ _ _ ih ih' => exact ih.trans ih'

/-! ### The taxonomy -/

/-- The one category with a name of this accented key. -/
def Unambiguous (unicode : Unicode) (rows : List Row) (r : Row) (name : Text) : Prop :=
  name ∈ r.frenchNames ∧ ∀ b, Named unicode rows false (normalize unicode name false) b → b = r.id

theorem canon_unambiguous (h : unicode.Tables) {tsv name typed : Text} {r : Row} (hindexed : Indexed (rowsOf tsv))
    (hr : r ∈ rowsOf tsv) (hname : Unambiguous unicode (rowsOf tsv) r name) (hkey : normalize unicode name false ≠ [])
    (htyped : EqvGen (Variant unicode) name typed) : canon unicode (parse unicode tsv) typed = some r.id := by
  have heldest : Eldest unicode (rowsOf tsv) false (normalize unicode typed false) r.id := by
    rw [← normalize_variants h htyped]
    refine ⟨⟨hkey, r, hr, rfl, name, hname.1, rfl⟩, fun b hb => ?_⟩
    rw [hname.2 b hb]
  have hresolved := canon_resolvedTo unicode hindexed typed
  cases hresult : canon unicode (parse unicode tsv) typed with
  | none =>
    rw [hresult] at hresolved
    cases hresolved with
    | none hnone => exact absurd heldest (hnone _)
  | some a =>
    rw [hresult] at hresolved
    cases hresolved with
    | exact ha =>
      have hnamed := ha.named
      rw [← normalize_variants h htyped] at hnamed
      rw [hname.2 a hnamed]
    | folded hnone => exact absurd heldest (hnone _)

/-- The search ends, and finds the reflexive and transitive closure of the parents; a name is the eldest category of its
accented key, or else of its folded one, in any order of the lines; an unambiguous name is resolved however it is written. -/
theorem resolves (h : unicode.Tables) (tsv : Text) (hindexed : Indexed (rowsOf tsv)) :
    (∀ t < (parse unicode tsv).ids.length, ∃ seen, (parse unicode tsv).ancestorsOrSelf t = some seen ∧
      ∀ b, b ∈ seen ↔ ReflTransGen (parse unicode tsv).IsParent t b) ∧
    (∀ a b i j, (parse unicode tsv).tag a = some i → (parse unicode tsv).tag b = some j →
      ((parse unicode tsv).satisfies i j = true ↔ ReflTransGen (Parent (rowsOf tsv)) a b)) ∧
    (∀ name, ResolvedTo unicode (rowsOf tsv) name (canon unicode (parse unicode tsv) name)) ∧
    (∀ name t, (parse unicode tsv).canonicalIngredient unicode name = some t → ∃ a, (parse unicode tsv).id t = some a) ∧
    (Acyclic (rowsOf tsv) → ∀ tsv', SameRows (rowsOf tsv) (rowsOf tsv') → ∀ name,
      canon unicode (parse unicode tsv') name = canon unicode (parse unicode tsv) name) ∧
    ∀ r ∈ rowsOf tsv, ∀ name, Unambiguous unicode (rowsOf tsv) r name → normalize unicode name false ≠ [] →
      ∀ typed, EqvGen (Variant unicode) name typed → canon unicode (parse unicode tsv) typed = some r.id := by
  refine ⟨fun t ht => ancestorsOrSelf_eq (by simpa [parse, bareOf] using ht), fun a b i j ha hb => ?_,
    fun name => canon_resolvedTo unicode hindexed name, fun name t => canonicalIngredient_id hindexed,
    fun hacyclic tsv' hsame name => canon_same hindexed hacyclic hsame name,
    fun r hr name hname hkey typed htyped => canon_unambiguous h hindexed hr hname hkey htyped⟩
  have hi := (byId_iff hindexed).mp ha
  exact (satisfies_iff (lt_of_id hi)).trans (descends_iff hindexed hi ((byId_iff hindexed).mp hb))

/-! ### A pantry -/

/-- The tables of Unicode for the letters of French. -/
def french : Unicode where
  lowercase c :=
    if ('A' ≤ c ∧ c ≤ 'Z') ∨ ('À' ≤ c ∧ c ≤ 'Ý' ∧ c ≠ '×') then [Char.ofNat (c.toNat + 32)]
    else if c = 'Œ' then ['œ'] else if c = 'Ÿ' then ['ÿ'] else [c]
  alphanumeric c :=
    ('a' ≤ foldAccent c ∧ foldAccent c ≤ 'z') ∨ ('A' ≤ c ∧ c ≤ 'Z') ∨ ('À' ≤ c ∧ c ≤ 'Ý' ∧ c ≠ '×') ∨
      ('0' ≤ c ∧ c ≤ '9') ∨ c ∈ ['œ', 'Œ', 'æ', 'Ÿ']

theorem foldAccent_cases (c : Char) : foldAccent c = c ∨
    ('a' ≤ foldAccent c ∧ foldAccent c ≤ 'z' ∧ foldAccent (foldAccent c) = foldAccent c) := by
  unfold foldAccent
  split <;> first | exact .inl rfl | exact .inr (by decide)

theorem french_tables : french.Tables := by
  refine ⟨fun c ha hz => ⟨?_, ?_⟩, ?_, fun c => ?_, ?_⟩
  · have hA : ¬('A' ≤ c ∧ c ≤ 'Z') := fun hc => absurd (Char.le_trans ha hc.2) (by decide)
    have hÀ : ¬('À' ≤ c ∧ c ≤ 'Ý' ∧ c ≠ '×') := fun hc => absurd (Char.le_trans hc.1 hz) (by decide)
    have hŒ : c ≠ 'Œ' := by rintro rfl; exact absurd hz (by decide)
    have hŸ : c ≠ 'Ÿ' := by rintro rfl; exact absurd hz (by decide)
    simp [french, hA, hÀ, hŒ, hŸ]
  · exact decide_eq_true (.inl (by rw [foldAccent_letter ha hz]; exact ⟨ha, hz⟩))
  · rintro c (rfl | rfl) <;> decide
  · rcases foldAccent_cases c with hc | ⟨ha, hz, hfold⟩
    · rw [hc]
    · exact (decide_eq_true (.inl (by rw [hfold]; exact ⟨ha, hz⟩))).trans (decide_eq_true (.inl ⟨ha, hz⟩)).symm
  · rintro c (rfl | rfl) <;> decide

def pantry : Text := "en:hams\t\tJambons\nen:diced-ham\ten:hams\tJambon|Dés de jambon\nen:olive-oils\t\tHuiles d'olive".toList

theorem pantry_rows : rowsOf pantry = [⟨"en:hams".toList, [], "Jambons".toList⟩,
    ⟨"en:diced-ham".toList, "en:hams".toList, "Jambon|Dés de jambon".toList⟩,
    ⟨"en:olive-oils".toList, [], "Huiles d'olive".toList⟩] := by decide

theorem resolves_pantry : (∃ seen, (parse french pantry).ancestorsOrSelf 1 = some seen ∧ 0 ∈ seen) ∧
    canon french (parse french pantry) "HUILES D’OLIVE".toList = some "en:olive-oils".toList := by
  have hindexed : Indexed (rowsOf pantry) := ⟨by rw [pantry_rows]; decide, by rw [pantry_rows]; decide⟩
  obtain ⟨hsearch, -, -, -, -, hnames⟩ := resolves french_tables pantry hindexed
  constructor
  · obtain ⟨seen, hseen, hmem⟩ := hsearch 1 (by decide)
    exact ⟨seen, hseen, (hmem 0).mpr (.single (show 0 ∈ (parse french pantry).parentsOf 1 by decide))⟩
  · have hr : (⟨"en:olive-oils".toList, [], "Huiles d'olive".toList⟩ : Row) ∈ rowsOf pantry := by
      rw [pantry_rows]
      decide
    refine hnames _ hr "Huiles d'olive".toList ⟨by decide, ?_⟩ (by decide +kernel) _ (.trans _ "Huiles d’olive".toList _ ?_ ?_)
    · rintro b ⟨-, r, hr, rfl, name, hname, hkey⟩
      have hall : ∀ r ∈ rowsOf pantry, ∀ name ∈ r.frenchNames,
          normalize french name false = normalize french "Huiles d'olive".toList false → r.id = "en:olive-oils".toList := by
        rw [pantry_rows]
        decide
      exact hall r hr name hname hkey
    · exact .rel _ _ (.apostrophe "Huiles d".toList "olive".toList)
    · exact .rel _ _ (.case (by decide))

/-! ### What is resolved otherwise -/

/-- A word of two letters: its plural is another word. -/
def dice : Text := "en:dice\t\tDé".toList

theorem dice_unresolved : ∃ r ∈ rowsOf dice, Unambiguous french (rowsOf dice) r "Dé".toList ∧
    canon french (parse french dice) "Dé".toList = some r.id ∧ canon french (parse french dice) "Dés".toList = none := by
  refine ⟨⟨"en:dice".toList, [], "Dé".toList⟩, by decide, ⟨by decide +kernel, ?_⟩, by decide +kernel, by decide +kernel⟩
  rintro b ⟨-, r, hr, rfl, -⟩
  obtain rfl := List.mem_singleton.mp (show r ∈ [(⟨"en:dice".toList, [], "Dé".toList⟩ : Row)] from hr)
  rfl

/-- One line of many: the last one alone has a name. -/
def crowdRow (last i : ℕ) : Row := ⟨List.replicate i 'a', [], if i = last then ['s', 'e', 'l'] else []⟩

def crowdLine (last i : ℕ) : Text := (crowdRow last i).id ++ '\t' :: '\t' :: (crowdRow last i).names

def crowd (last : ℕ) : Text := ['\n'].intercalate ((List.range (last + 1)).map (crowdLine last))

theorem rowOf_crowdLine (last i : ℕ) : rowOf (crowdLine last i) = some (crowdRow last i) := by
  have htab : '\t' ∉ (crowdRow last i).id := by
    intro h
    exact absurd (List.eq_of_mem_replicate h) (by decide)
  rw [rowOf, crowdLine, splitOnce_char htab]
  rfl

theorem rowsOf_crowd (last : ℕ) : rowsOf (crowd last) = (List.range (last + 1)).map (crowdRow last) := by
  have hmem : ∀ i c, c ∈ crowdLine last i → c ∈ ['a', '\t', 's', 'e', 'l'] := by
    intro i c hc
    rw [crowdLine, crowdRow, List.mem_append, List.mem_cons, List.mem_cons] at hc
    rcases hc with hc | rfl | rfl | hc
    · rw [List.eq_of_mem_replicate hc]
      decide
    · decide
    · decide
    · split at hc
      · exact List.mem_cons_of_mem _ (List.mem_cons_of_mem _ hc)
      · cases hc
  have hlines : linesFrom [] (crowd last) = (List.range (last + 1)).map (crowdLine last) := by
    refine linesFrom_intercalate fun line hline => ?_
    obtain ⟨i, -, rfl⟩ := List.mem_map.mp hline
    exact ⟨by simp [crowdLine], fun h => absurd (hmem i _ h) (by decide), fun h => absurd (hmem i _ h) (by decide)⟩
  have hkept : ∀ line ∈ (List.range (last + 1)).map (crowdLine last), line ≠ [] ∧ line.head? ≠ some '#' := by
    intro line hline
    obtain ⟨i, -, rfl⟩ := List.mem_map.mp hline
    exact ⟨by simp [crowdLine], fun h => absurd (hmem i _ (List.mem_of_mem_head? h)) (by decide)⟩
  rw [rowsOf, hlines, List.filter_eq_self.mpr fun line hline => decide_eq_true (hkept line hline), List.filterMap_map,
    show rowOf ∘ crowdLine last = some ∘ crowdRow last from funext fun i => rowOf_crowdLine last i, ← List.filterMap_map]
  exact List.filterMap_some

theorem crowd_names {last i : ℕ} {name : Text} (hname : name ∈ (crowdRow last i).frenchNames)
    (hkey : normalize french name false = ['s', 'e', 'l']) : i = last := by
  by_contra hi
  rw [Row.frenchNames, crowdRow, if_neg hi] at hname
  obtain rfl := List.mem_singleton.mp (show name ∈ [[]] from hname)
  exact absurd hkey (by decide)

/-- Past the indexes of 32 bits, a name is resolved to another category. -/
theorem crowd_misnamed {last : ℕ} (hpos : 0 < last) (htag : tagId last = 0) :
    ((rowsOf (crowd last)).map Row.id).Nodup ∧ crowdRow last last ∈ rowsOf (crowd last) ∧
      Unambiguous french (rowsOf (crowd last)) (crowdRow last last) ['s', 'e', 'l'] ∧
      canon french (parse french (crowd last)) ['s', 'e', 'l'] ≠ some (crowdRow last last).id := by
  have hrows := rowsOf_crowd last
  have hlast : (rowsOf (crowd last))[last]? = some (crowdRow last last) := by
    rw [hrows, List.getElem?_map, List.getElem?_range (Nat.lt_succ_self last), Option.map_some]
  have hsel : ['s', 'e', 'l'] ∈ (crowdRow last last).frenchNames := by
    rw [Row.frenchNames, crowdRow, if_pos rfl]
    show _ ∈ List.splitOn '|' ['s', 'e', 'l']
    decide
  have hcandidates : ∀ t, t ∈ candidates french false (rowsOf (crowd last)) ['s', 'e', 'l'] ↔ t = 0 := by
    intro t
    rw [mem_candidates]
    constructor
    · rintro ⟨-, i, r, hr, rfl, name, hname, hkey⟩
      rw [hrows, List.getElem?_map, Option.map_eq_some_iff] at hr
      obtain ⟨j, hj, rfl⟩ := hr
      have hij : i = j := by simpa using (List.getElem?_eq_some_iff.mp hj).2
      rw [hij, crowd_names hname hkey, htag]
    · rintro rfl
      exact ⟨by decide, last, _, hlast, htag, _, hsel, by decide⟩
  refine ⟨?_, List.mem_of_getElem? hlast, ⟨hsel, ?_⟩, ?_⟩
  · rw [hrows, List.map_map]
    refine List.nodup_range.map fun i j hij => ?_
    simpa using congrArg List.length (show List.replicate i 'a' = List.replicate j 'a' from hij)
  · rintro b ⟨-, r, hr, rfl, name, hname, hkey⟩
    rw [hrows] at hr
    obtain ⟨i, -, rfl⟩ := List.mem_map.mp hr
    rw [crowd_names hname hkey]
  · have hlt : ∀ t ∈ candidates french false (rowsOf (crowd last)) ['s', 'e', 'l'], t < (rowsOf (crowd last)).length :=
      fun t ht => candidates_lt french ht
    obtain ⟨hsome, hnone⟩ := commonAncestorAmong_spec hlt
    have hexact : (parse french (crowd last)).exact ['s', 'e', 'l'] = some 0 := by
      cases hfound : (parse french (crowd last)).exact ['s', 'e', 'l'] with
      | none =>
        obtain ⟨t, ht, hnot⟩ := hnone hfound 0 ((hcandidates 0).mpr rfl)
        obtain rfl := (hcandidates t).mp ht
        exact absurd .refl hnot
      | some t => rw [(hcandidates t).mp (hsome t hfound).1]
    have hid : (parse french (crowd last)).id 0 = some [] := by
      show ((rowsOf (crowd last)).map Row.id)[0]? = _
      rw [hrows, List.map_map, List.getElem?_map, List.getElem?_range (Nat.succ_pos last)]
      rfl
    rw [canon, Taxonomy.canonicalIngredient, show normalize french ['s', 'e', 'l'] false = ['s', 'e', 'l'] by decide, hexact,
      Option.some_or, Option.bind_some, hid]
    intro heq
    have hlength := congrArg List.length (Option.some.inj heq)
    rw [show (crowdRow last last).id = List.replicate last 'a' from rfl, List.length_replicate] at hlength
    exact absurd hlength (Nat.ne_of_lt hpos)

/-- The plural of a word of two letters is not resolved, nor is a category past the indexes of 32 bits. -/
theorem resolved_otherwise :
    (¬∀ tsv, ((rowsOf tsv).map Row.id).Nodup → ∀ r ∈ rowsOf tsv, ∀ name, Unambiguous french (rowsOf tsv) r name →
      canon french (parse french tsv) (name ++ ['s']) = some r.id) ∧
    ¬∀ tsv, ((rowsOf tsv).map Row.id).Nodup → ∀ r ∈ rowsOf tsv, ∀ name, Unambiguous french (rowsOf tsv) r name →
      canon french (parse french tsv) name = some r.id := by
  constructor
  · intro h
    obtain ⟨r, hr, hname, -, hnone⟩ := dice_unresolved
    have hsome : canon french (parse french dice) "Dés".toList = some r.id := h dice (by decide) r hr _ hname
    rw [hnone] at hsome
    cases hsome
  · intro h
    obtain ⟨hnodup, hr, hname, hnot⟩ := @crowd_misnamed (2 ^ 32) (Nat.two_pow_pos 32) (Nat.mod_self _)
    exact hnot (h _ hnodup _ hr _ hname)

end Home.Recipes
