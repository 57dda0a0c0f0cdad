import ManageOurHome.Recipes.Page

/-! @src apps/api/src/recipes/html.rs | layer:proof | family:text of a page

    `tokenize` undoes the writing of a page, and `attribute` that of a tag. Each reader is followed over
    what was written and leaves the rest as it is. -/

namespace Home.Recipes.Html

/-! ### Characters -/

theorem ne_of_space {c d : Char} (h : isWhitespace c) (hd : isWhitespace d = false) : c ≠ d := by
  rintro rfl
  rw [h] at hd
  cases hd

theorem space_of_ascii {c : Char} (h : isAsciiWhitespace c) : isWhitespace c := by
  simp only [isAsciiWhitespace, Bool.or_eq_true, decide_eq_true_eq] at h
  rcases h with (((rfl | rfl) | rfl) | rfl) | rfl <;> decide

theorem not_nameChar_of_space {c : Char} (h : isWhitespace c) : isNameChar c = false := by
  rw [Bool.eq_false_iff]
  intro hname
  delta isNameChar Char.isAlphanum Char.isAlpha Char.isUpper Char.isLower Char.isDigit at hname
  simp only [Bool.or_eq_true, Bool.and_eq_true, decide_eq_true_eq, UInt32.le_iff_toNat_le, ge_iff_le] at hname
  simp only [isWhitespace, decide_eq_true_eq] at h
  change (((65 ≤ c.toNat ∧ c.toNat ≤ 90) ∨ (97 ≤ c.toNat ∧ c.toNat ≤ 122)) ∨
    (48 ≤ c.toNat ∧ c.toNat ≤ 57)) ∨ c = '-' at hname
  rcases hname with hname | rfl
  · omega
  · exact absurd h (by decide)

/-- A run of characters ends where what follows is not one of them. -/
theorem span_append {P : Char → Bool} {w : Text} (rest : Text) (hw : ∀ c ∈ w, P c)
    (hrest : ∀ c ∈ rest.head?, P c = false) :
    (w ++ rest).takeWhile P = w ∧ (w ++ rest).dropWhile P = rest := by
  rw [List.takeWhile_append_of_pos hw, List.dropWhile_append_of_pos hw]
  rcases rest with _ | ⟨c, rest⟩
  · simp
  · have hc := hrest c rfl
    simp [hc]

/-! ### The end of a tag -/

theorem tagEnd_unquoted {w rest attributes after : Text} (hw : ∀ c ∈ w, c ≠ '>' ∧ c ≠ '=')
    (hrest : tagEnd none false rest = some (attributes, after)) :
    tagEnd none false (w ++ rest) = some (w ++ attributes, after) := by
  induction w with
  | nil => exact hrest
  | cons c w ih =>
    obtain ⟨⟨hgt, heq⟩, hw⟩ := List.forall_mem_cons.mp hw
    rw [List.cons_append, tagEnd, if_neg hgt, if_neg (by simp), if_neg heq, ite_self, ih hw]
    rfl

theorem tagEnd_afterEquals {w rest attributes after : Text} (hw : ∀ c ∈ w, isAsciiWhitespace c)
    (hrest : tagEnd none true rest = some (attributes, after)) :
    tagEnd none true (w ++ rest) = some (w ++ attributes, after) := by
  induction w with
  | nil => exact hrest
  | cons c w ih =>
    obtain ⟨hc, hw⟩ := List.forall_mem_cons.mp hw
    have hspace := space_of_ascii hc
    rw [List.cons_append, tagEnd, if_neg (ne_of_space hspace (by decide)), if_neg, if_neg, if_pos hc, ih hw]
    · rfl
    · exact ne_of_space hspace (by decide)
    · rintro ⟨rfl | rfl, -⟩
      · exact absurd hc (by decide)
      · exact absurd hc (by decide)

theorem tagEnd_quoted {quote : Char} {w rest attributes after : Text} (hw : quote ∉ w)
    (hrest : tagEnd none false rest = some (attributes, after)) :
    tagEnd (some quote) false (w ++ quote :: rest) = some (w ++ quote :: attributes, after) := by
  induction w with
  | nil =>
    rw [List.nil_append, tagEnd, if_pos rfl, hrest]
    rfl
  | cons c w ih =>
    rw [List.mem_cons, not_or] at hw
    rw [List.cons_append, tagEnd, if_neg (Ne.symm hw.1), ih hw.2]
    rfl

theorem Attribute.tagEnd (a : Attribute) {rest attributes after : Text}
    (hrest : tagEnd none false rest = some (attributes, after)) :
    tagEnd none false (a.write ++ rest) = some (a.write ++ attributes, after) := by
  have hvalue := tagEnd_quoted a.value_char hrest
  have hquote : Html.tagEnd none true (a.quote :: (a.value.write ++ a.quote :: rest)) =
      some (a.quote :: (a.value.write ++ a.quote :: attributes), after) := by
    have hgt : a.quote ≠ '>' := by rcases a.quote_char with h | h <;> rw [h] <;> decide
    rw [Html.tagEnd, if_neg hgt, if_pos ⟨a.quote_char, rfl⟩, hvalue]
    rfl
  have hafter := tagEnd_afterEquals a.afterEquals_space hquote
  have hequals : Html.tagEnd none false ('=' :: (a.afterEquals ++ a.quote :: (a.value.write ++ a.quote :: rest))) =
      some ('=' :: (a.afterEquals ++ a.quote :: (a.value.write ++ a.quote :: attributes)), after) := by
    rw [Html.tagEnd, if_neg (by decide), if_neg (by simp), if_pos rfl, hafter]
    rfl
  have hspace : ∀ {w : Text}, (∀ c ∈ w, isWhitespace c) → ∀ c ∈ w, c ≠ '>' ∧ c ≠ '=' := fun hw c hc =>
    ⟨ne_of_space (hw c hc) (by decide), ne_of_space (hw c hc) (by decide)⟩
  have hname : ∀ c ∈ a.name, c ≠ '>' ∧ c ≠ '=' := fun c hc =>
    ⟨(a.name_char c hc).2.2.2, (a.name_char c hc).2.1⟩
  have hall := tagEnd_unquoted (hspace a.before_space)
    (tagEnd_unquoted hname (tagEnd_unquoted (hspace a.beforeEquals_space) hequals))
  simpa [Attribute.write] using hall

theorem Tag.tagEnd (tag : Tag) (rest : Text) :
    tagEnd none false (tag.writeAttributes ++ '>' :: rest) = some (tag.writeAttributes, rest) := by
  have hclose : Html.tagEnd none false ('>' :: rest) = some ([], rest) := by rw [Html.tagEnd, if_pos rfl]
  have hplain : ∀ c ∈ tag.space, c ≠ '>' ∧ c ≠ '=' := fun c hc =>
    ⟨ne_of_space (tag.space_space c hc) (by decide), ne_of_space (tag.space_space c hc) (by decide)⟩
  have hspace := tagEnd_unquoted hplain hclose
  rw [List.append_nil] at hspace
  have hall : ∀ attributes : List Attribute,
      Html.tagEnd none false (attributes.flatMap Attribute.write ++ (tag.space ++ '>' :: rest)) =
        some (attributes.flatMap Attribute.write ++ tag.space, rest) := by
    intro attributes
    induction attributes with
    | nil => exact hspace
    | cons a attributes ih =>
      rw [List.flatMap_cons, List.append_assoc, List.append_assoc]
      exact a.tagEnd ih
  rw [Tag.writeAttributes, List.append_assoc]
  exact hall tag.attributes

/-! ### A tag -/

theorem Tag.head_writeAttributes (tag : Tag) (rest : Text) :
    ∀ c ∈ (tag.writeAttributes ++ '>' :: rest).head?, isNameChar c = false := by
  intro c hc
  have hspace : ∀ {w : Text}, (∀ d ∈ w, isWhitespace d) → c ∈ w.head? → isNameChar c = false :=
    fun hw hmem => not_nameChar_of_space (hw c (List.mem_of_head? hmem))
  rw [writeAttributes] at hc
  rcases hattributes : tag.attributes with _ | ⟨a, attributes⟩
  · rcases hempty : tag.space with _ | ⟨d, space⟩
    · rw [hattributes, hempty] at hc
      obtain rfl : '>' = c := by simpa using hc
      decide
    · rw [hattributes, hempty] at hc
      exact hspace tag.space_space (by rw [hempty]; simpa using hc)
  · obtain ⟨d, before, hbefore⟩ := List.exists_cons_of_ne_nil a.before_ne
    rw [hattributes] at hc
    exact hspace a.before_space (by rw [hbefore]; simpa [Attribute.write, hbefore] using hc)

theorem Tag.read (tag : Tag) (rest : Text) :
    readTag false (tag.name ++ (tag.writeAttributes ++ '>' :: rest)) =
      some (tag.element, tag.writeAttributes, rest) := by
  obtain ⟨htake, hdrop⟩ := span_append _ tag.name_char (tag.head_writeAttributes rest)
  rw [readTag]
  simp only [Bool.false_eq_true, if_false]
  rw [htake, hdrop, tag.tagEnd]
  rfl

theorem Tag.readEnd (tag : Tag) (rest : Text) :
    readTag true ('/' :: (tag.name ++ '>' :: rest)) = some (tag.element, [], rest) := by
  obtain ⟨htake, hdrop⟩ := span_append ('>' :: rest) tag.name_char (by simp [isNameChar])
  rw [readTag]
  simp only [if_true, List.tail_cons]
  rw [htake, hdrop, Html.tagEnd, if_pos rfl]
  rfl

theorem rdropWhile_concat_slash {w : Text} {c : Char} (hc : c ≠ '/') :
    (w ++ [c]).rdropWhile (· = '/') = w ++ [c] :=
  List.rdropWhile_concat_neg _ _ _ (by simpa using hc)

theorem Attribute.write_concat (a : Attribute) : ∃ w, a.write = w ++ [a.quote] :=
  ⟨a.before ++ (a.name ++ (a.beforeEquals ++ '=' :: (a.afterEquals ++ a.quote :: a.value.write))), by
    simp [Attribute.write]⟩

/-- The attributes end with whitespace or with a quote. -/
theorem Tag.rdropWhile_writeAttributes (tag : Tag) :
    tag.writeAttributes.rdropWhile (· = '/') = tag.writeAttributes := by
  rw [writeAttributes]
  rcases List.eq_nil_or_concat' tag.space with hspace | ⟨space, c, hspace⟩
  · rcases List.eq_nil_or_concat' tag.attributes with hattributes | ⟨attributes, a, hattributes⟩
    · rw [hspace, hattributes]
      rfl
    · obtain ⟨w, hw⟩ := a.write_concat
      have hquote : a.quote ≠ '/' := by rcases a.quote_char with h | h <;> rw [h] <;> decide
      rw [hspace, hattributes, List.flatMap_append, List.flatMap_singleton, hw, List.append_nil,
        ← List.append_assoc]
      exact rdropWhile_concat_slash hquote
  · have hc : isWhitespace c := tag.space_space c (by rw [hspace]; simp)
    rw [hspace, ← List.append_assoc]
    exact rdropWhile_concat_slash (ne_of_space hc (by decide))

/-! ### Markup -/

theorem Tag.name_cons (tag : Tag) : ∃ c name, tag.name = c :: name ∧ c.isAlpha = true := by
  have hhead := tag.name_head
  rcases hname : tag.name with _ | ⟨c, name⟩
  · rw [hname] at hhead
    cases hhead
  · rw [hname] at hhead
    exact ⟨c, name, rfl, hhead⟩

theorem Tag.scan (tag : Tag) (pending rest : Text) :
    scanMarkup pending (tag.name ++ (tag.writeAttributes ++ '>' :: rest)) =
      some (pushText pending ++ [.start tag.element tag.writeAttributes], some rest) := by
  obtain ⟨c, name, hname, halpha⟩ := tag.name_cons
  have hhead : (tag.name ++ (tag.writeAttributes ++ '>' :: rest)).head? = some c := by rw [hname]; rfl
  have hbang : some c ≠ some '!' := by
    rintro ⟨rfl⟩
    exact absurd halpha (by decide)
  have hslash : some c ≠ some '/' := by
    rintro ⟨rfl⟩
    exact absurd halpha (by decide)
  have hraw : ¬ (tag.element = script ∨ tag.element = style) := by
    rintro (h | h)
    · exact tag.name_html.1 h
    · exact tag.name_html.2 h
  have hany : (some c).any Char.isAlpha = true := halpha
  rw [scanMarkup, hhead, if_neg hbang, if_pos (Or.inr hany)]
  simp only [decide_eq_false hslash]
  rw [tag.read]
  simp only [pushTag, Bool.false_eq_true, if_false, if_neg hraw, tag.rdropWhile_writeAttributes]

theorem Tag.element_ne (tag : Tag) : tag.element ≠ [] := by
  obtain ⟨c, name, hname, -⟩ := tag.name_cons
  rw [element, hname]
  exact List.cons_ne_nil _ _

theorem Tag.scanEnd (tag : Tag) (pending rest : Text) :
    scanMarkup pending ('/' :: (tag.name ++ '>' :: rest)) =
      some (pushText pending ++ [.endTag tag.element], some rest) := by
  rw [scanMarkup, List.head?_cons, if_neg (by decide), if_pos (Or.inl rfl)]
  simp only [decide_true]
  rw [tag.readEnd]
  simp only [pushTag, if_true, if_neg tag.element_ne]

/-- The first `-->` after a comment's text is its own. -/
theorem cutAt_commentEnd {body : Text} (rest : Text) (h : ¬ commentEnd <:+: body) :
    cutAt commentEnd (body ++ (commentEnd ++ rest)) = some (body, rest) := by
  induction body with
  | nil => rfl
  | cons c body ih =>
    have hbody : ¬ commentEnd <:+: body := fun hin => h (hin.trans (List.suffix_cons c body).isInfix)
    have hprefix : ¬ commentEnd <+: c :: (body ++ (commentEnd ++ rest)) := by
      intro hpre
      rcases body with _ | ⟨d, _ | ⟨e, body⟩⟩
      · simp [commentEnd] at hpre
      · simp [commentEnd] at hpre
      · obtain ⟨rfl, rfl, rfl⟩ : '-' = c ∧ '-' = d ∧ '>' = e := by simpa [commentEnd] using hpre
        exact h (List.prefix_append _ body).isInfix
    rw [List.cons_append, cutAt, if_neg hprefix, ih hbody]
    rfl

theorem scan_comment {body : Text} (pending rest : Text) (h : ¬ commentEnd <:+: body) :
    scanMarkup pending ('!' :: '-' :: '-' :: (body ++ (commentEnd ++ rest))) =
      some (pushText pending, some rest) := by
  rw [scanMarkup, List.head?_cons, if_pos rfl, afterMarkup, if_pos (by simp [commentStart])]
  have hcut : cutAt commentEnd (List.drop 4 ('<' :: '!' :: '-' :: '-' :: (body ++ (commentEnd ++ rest)))) =
      some (body, rest) := cutAt_commentEnd rest h
  rw [hcut]
  rfl

/-! ### The page -/

/-- Markup ends the text before it: nothing is left pending. -/
def Opens (s : Text) : Prop := ∀ pending, tokenizeFrom pending s = pushText pending ++ tokenizeFrom [] s

theorem opens_nil : Opens [] := by
  intro pending
  rw [tokenizeFrom, tokenizeFrom]
  exact (List.append_nil _).symm

theorem tokenizeFrom_scan {pending rest left : Text} {tokens : List Token}
    (h : scanMarkup pending rest = some (tokens, some left)) :
    tokenizeFrom pending ('<' :: rest) = tokens ++ tokenizeFrom [] left := by
  rw [tokenizeFrom, if_neg (by simp)]
  split
  · rename_i hscan
    rw [h] at hscan
    cases hscan
  · rename_i hscan
    rw [h] at hscan
    cases hscan
  · rename_i hscan
    rw [h] at hscan
    obtain ⟨rfl, hleft⟩ := Prod.mk.inj (Option.some.inj hscan)
    rw [Option.some.inj hleft]

/-- Markup whose scan gives `tokens` after the text before it. -/
theorem opens_scan {rest left : Text} {tokens : List Token}
    (h : ∀ pending, scanMarkup pending rest = some (pushText pending ++ tokens, some left)) :
    Opens ('<' :: rest) ∧ tokenizeFrom [] ('<' :: rest) = tokens ++ tokenizeFrom [] left := by
  have hnil := tokenizeFrom_scan (h [])
  rw [pushText, if_pos rfl, List.nil_append] at hnil
  refine ⟨fun pending => ?_, hnil⟩
  rw [tokenizeFrom_scan (h pending), hnil, List.append_assoc]

theorem tokenizeFrom_text {t : Text} (pending rest : Text) (h : '<' ∉ t) :
    tokenizeFrom pending (t ++ rest) = tokenizeFrom (pending ++ t) rest := by
  induction t generalizing pending with
  | nil => rw [List.nil_append, List.append_nil]
  | cons c t ih =>
    rw [List.mem_cons, not_or] at h
    rw [List.cons_append, tokenizeFrom, if_pos (Ne.symm h.1), ih _ h.2, List.append_assoc]
    rfl

/-- A text, then markup. -/
theorem tokenize_text (glyphs : Glyphs) {rest : Text} (h : Opens rest) :
    tokenizeFrom [] (glyphs.write ++ rest) = pushText glyphs.write ++ tokenizeFrom [] rest := by
  rw [tokenizeFrom_text _ _ glyphs.less_notMem, List.nil_append, h]

theorem Forest.tokenize {ancestors : List Text} (f : Forest) (hwell : f.WellFormed ancestors) {rest : Text}
    (hrest : Opens rest) :
    tokenizeFrom [] (f.write ++ rest) = f.tokens ++ tokenizeFrom [] rest := by
  induction f generalizing ancestors rest with
  | done text => exact tokenize_text text hrest
  | comment text body tail ih =>
    obtain ⟨hbody, htail⟩ := hwell
    have hcomment : ∀ pending, scanMarkup pending ('!' :: '-' :: '-' :: (body ++ (commentEnd ++ (tail.write ++ rest)))) =
        some (pushText pending ++ [], some (tail.write ++ rest)) := fun pending => by
      rw [List.append_nil]
      exact scan_comment pending (tail.write ++ rest) hbody
    obtain ⟨hopens, hscan⟩ := opens_scan hcomment
    have hmarkup := tokenize_text text hopens
    rw [hscan, List.nil_append, ih htail hrest] at hmarkup
    simpa [write, tokens, commentStart] using hmarkup
  | element text tag children tail ihchildren ih =>
    obtain ⟨-, -, -, hchildren, htail⟩ := hwell
    have hafter := ih htail hrest
    obtain ⟨hopens, hscan⟩ := opens_scan fun pending => tag.scan pending
      ((if tag.void then [] else children.write ++ tag.writeEnd) ++ (tail.write ++ rest))
    have hinside : tokenizeFrom [] ((if tag.void then [] else children.write ++ tag.writeEnd) ++ (tail.write ++ rest)) =
        (if tag.void then [] else children.tokens ++ [.endTag tag.element]) ++
          (tail.tokens ++ tokenizeFrom [] rest) := by
      split
      · exact hafter
      · obtain ⟨hopensEnd, hscanEnd⟩ := opens_scan fun pending => tag.scanEnd pending (tail.write ++ rest)
        have hchild := ihchildren hchildren hopensEnd
        rw [hscanEnd, hafter] at hchild
        simpa [Tag.writeEnd] using hchild
    have hmarkup := tokenize_text text hopens
    rw [hscan, hinside] at hmarkup
    simpa [write, tokens, Tag.write] using hmarkup

/-- A page is read back as its tokens. -/
theorem Forest.tokenize_write {ancestors : List Text} (f : Forest) (hwell : f.WellFormed ancestors) :
    Html.tokenize f.write = f.tokens := by
  have hpage := f.tokenize hwell opens_nil
  rw [List.append_nil, tokenizeFrom, pushText, if_pos rfl, List.append_nil] at hpage
  exact hpage

/-! ### Attributes -/

theorem readValue_quoted {quote : Char} {value : Text} (rest : Text) (hquote : quote = '"' ∨ quote = '\'')
    (hvalue : quote ∉ value) : readValue (quote :: (value ++ quote :: rest)) = (value, rest) := by
  have hin : ∀ c ∈ value, (decide (c ≠ quote)) = true := fun c hc => by
    rw [decide_eq_true_iff]
    rintro rfl
    exact hvalue hc
  obtain ⟨htake, hdrop⟩ := span_append (quote :: rest) hin (by simp)
  simp only [readValue, if_pos hquote, htake, hdrop, List.tail_cons]

/-- An attribute is read up to its closing quote. -/
theorem Attribute.read (a : Attribute) (rest : Text) :
    readAttribute (a.name ++ (a.beforeEquals ++ '=' :: (a.afterEquals ++ a.quote :: (a.value.write ++ a.quote :: rest)))) =
      (a.name, a.value.write, rest) := by
  have hname : ∀ c ∈ a.name, inAttributeName c := fun c hc => by
    obtain ⟨hspace, hequals, hslash, -⟩ := a.name_char c hc
    simp [inAttributeName, hspace, hequals, hslash]
  have hstop : ∀ c ∈ (a.beforeEquals ++ '=' :: (a.afterEquals ++ a.quote :: (a.value.write ++ a.quote :: rest))).head?,
      inAttributeName c = false := by
    intro c hc
    rcases hbefore : a.beforeEquals with _ | ⟨d, beforeEquals⟩
    · rw [hbefore] at hc
      obtain rfl : '=' = c := by simpa using hc
      decide
    · rw [hbefore] at hc
      obtain rfl : d = c := by simpa using hc
      have hd : isWhitespace d := a.beforeEquals_space d (by rw [hbefore]; simp)
      simp [inAttributeName, hd]
  obtain ⟨htake, hdrop⟩ := span_append _ hname hstop
  have hequals := (span_append ('=' :: (a.afterEquals ++ a.quote :: (a.value.write ++ a.quote :: rest)))
    a.beforeEquals_space (by simp [isWhitespace])).2
  have hquote : ∀ c ∈ (a.quote :: (a.value.write ++ a.quote :: rest)).head?, isWhitespace c = false := by
    rintro c ⟨rfl⟩
    rcases a.quote_char with h | h <;> rw [h] <;> decide
  have hafter := (span_append _ (fun c hc => space_of_ascii (a.afterEquals_space c hc)) hquote).2
  rw [readAttribute, htake, hdrop, hequals]
  simp only [hafter, readValue_quoted rest a.quote_char a.value_char]

theorem attributeOf_space {space : Text} (name : Text) (h : ∀ c ∈ space, isWhitespace c) :
    attributeOf space name = none := by
  have hdrop : space.dropWhile betweenAttributes = [] :=
    List.dropWhile_eq_nil_iff.mpr fun c hc => by simp [betweenAttributes, h c hc]
  rw [attributeOf]
  split
  · rfl
  · rename_i c rest hrest
    rw [hdrop] at hrest
    cases hrest

/-- One turn of the loop, over an attribute as written. -/
theorem attributeOf_cons (a : Attribute) (rest name : Text) :
    attributeOf (a.write ++ rest) name =
      if asciiLowercase a.name = asciiLowercase name then some (collapse a.value.chars) else attributeOf rest name := by
  obtain ⟨c, tail, hname⟩ := List.exists_cons_of_ne_nil a.name_ne
  have hread := a.read rest
  rw [hname, List.cons_append] at hread
  have hc : betweenAttributes c = false := by
    obtain ⟨hspace, -, hslash, -⟩ := a.name_char c (by rw [hname]; simp)
    simp [betweenAttributes, hspace, hslash]
  have hbefore : ∀ d ∈ a.before, betweenAttributes d := fun d hd => by
    simp [betweenAttributes, a.before_space d hd]
  have hwrite : a.write ++ rest = a.before ++ c :: (tail ++ (a.beforeEquals ++ '=' :: (a.afterEquals ++
      a.quote :: (a.value.write ++ a.quote :: rest)))) := by
    simp [Attribute.write, hname]
  have hdrop := (span_append (c :: (tail ++ (a.beforeEquals ++
    '=' :: (a.afterEquals ++ a.quote :: (a.value.write ++ a.quote :: rest))))) hbefore (by simpa using hc)).2
  rw [hwrite, attributeOf]
  split
  · rename_i hnil
    rw [hdrop] at hnil
    cases hnil
  · rename_i d left hleft
    rw [hdrop] at hleft
    obtain ⟨rfl, rfl⟩ := List.cons.inj hleft
    simp only [hread, plainText_write, hname]

/-- An attribute is found by its name in any case: the first one that has it. -/
theorem Tag.attributeOf (tag : Tag) (name : Text) :
    Html.attributeOf tag.writeAttributes name = (tag.value name).map collapse := by
  rw [writeAttributes, value]
  induction tag.attributes with
  | nil => exact attributeOf_space name tag.space_space
  | cons a attributes ih =>
    rw [List.flatMap_cons, List.append_assoc, attributeOf_cons, ih, List.find?_cons]
    by_cases hname : asciiLowercase a.name = asciiLowercase name
    · simp [hname]
    · simp [hname]

end Home.Recipes.Html
