import ManageOurHome.Recipes.PageTokens

/-! @src apps/api/src/recipes/html.rs | layer:proof | family:text of a page

    `match_ends` over the tokens of a page: the stack holds the ancestors of the token read, an end tag
    finds its own element on top, and nothing is closed early. Then the text of an element, which is what
    lies between the two.

        tokens    ⋯ start e · tokens of the children · end e ⋯
        ends          e.start  ────────────────────▶  e.finish -/

namespace Home.Recipes.Html

/-! ### The stack -/

/-- How deep the open elements of a name are, innermost first. -/
def depths (name : Text) : List (ℕ × Text) → List ℕ
  | [] => []
  | (_, found) :: below => if found = name then below.length :: depths name below else depths name below

theorem depths_lt {name : Text} {stack : List (ℕ × Text)} {depth : ℕ} (h : depth ∈ depths name stack) :
    depth < stack.length := by
  induction stack with
  | nil => cases h
  | cons top below ih =>
    rw [depths] at h
    split at h
    · rcases List.mem_cons.mp h with rfl | hmem
      · exact Nat.lt_succ_self _
      · exact (ih hmem).trans (Nat.lt_succ_self _)
    · exact (ih h).trans (Nat.lt_succ_self _)

/-- The map of open elements says where they are on the stack. -/
def Consistent (m : Matching) : Prop := ∀ name, m.opened name = depths name m.stack

theorem consistent_init : Consistent Matching.init := fun _ => rfl

theorem Consistent.push {m : Matching} (h : Consistent m) (pos : ℕ) (name : Text) :
    Consistent (m.push pos name) := by
  intro found
  change Function.update m.opened name (m.stack.length :: m.opened name) found =
    depths found ((pos, name) :: m.stack)
  rw [depths]
  by_cases hfound : found = name
  · subst hfound
    rw [Function.update_self, if_pos rfl, h]
  · rw [Function.update_of_ne hfound, if_neg (Ne.symm hfound), h]

/-- Nothing to close. -/
theorem closeDownTo_length (pos : ℕ) (stack : List (ℕ × Text)) (opened : Text → List ℕ) (ends : ℕ → ℕ) :
    closeDownTo stack.length pos stack opened ends = ⟨stack, opened, ends⟩ := by
  rcases stack with _ | ⟨⟨start, name⟩, below⟩
  · rfl
  · rw [closeDownTo, if_neg (by rw [List.length_cons]; omega)]

/-- An end tag whose element is on top closes it, and it alone. -/
theorem Consistent.step_endTag {m : Matching} (h : Consistent m) {start : ℕ} (pos : ℕ) {name : Text}
    {below : List (ℕ × Text)} (hstack : m.stack = (start, name) :: below) :
    (m.step pos (.endTag name)).stack = below ∧ Consistent (m.step pos (.endTag name)) ∧
      (m.step pos (.endTag name)).ends = Function.update m.ends start pos := by
  have hopened : ∀ found, m.opened found = depths found ((start, name) :: below) := fun found => hstack ▸ h found
  have hinner : m.innermost name = some below.length := by
    rw [Matching.innermost, hopened, depths, if_pos rfl]
    rfl
  have hstep : m.step pos (.endTag name) =
      ⟨below, Function.update m.opened name (m.opened name).tail, Function.update m.ends start pos⟩ := by
    simp only [Matching.step, hinner]
    rw [Matching.closeDownTo, hstack, closeDownTo, if_pos (Nat.lt_succ_self _), closeDownTo_length]
  rw [hstep]
  refine ⟨rfl, fun found => ?_, rfl⟩
  change Function.update m.opened name (m.opened name).tail found = depths found below
  by_cases hfound : found = name
  · subst hfound
    rw [Function.update_self, hopened, depths, if_pos rfl]
    rfl
  · rw [Function.update_of_ne hfound, hopened, depths, if_neg (Ne.symm hfound)]

theorem all_max {a b : Option ℕ} {item : ℕ} (h : (∃ x ∈ a, item ≤ x) ∨ ∃ x ∈ b, item ≤ x) :
    (max a b).all (· < item) = false := by
  rcases a with _ | a
  · rcases b with _ | b
    · rcases h with ⟨x, ⟨⟩, -⟩ | ⟨x, ⟨⟩, -⟩
    · rcases h with ⟨x, ⟨⟩, -⟩ | ⟨x, ⟨rfl⟩, hx⟩
      simpa using hx
  · rcases b with _ | b
    · rcases h with ⟨x, ⟨rfl⟩, hx⟩ | ⟨x, ⟨⟩, -⟩
      simpa using hx
    · rcases h with ⟨x, ⟨rfl⟩, hx⟩ | ⟨x, ⟨rfl⟩, hx⟩
      · exact decide_eq_false (not_lt.mpr (hx.trans (le_max_left a b)))
      · exact decide_eq_false (not_lt.mpr (hx.trans (le_max_right a b)))

/-- An `li` outside of the innermost list stays open. -/
theorem item_kept {stack : List (ℕ × Text)} (h : ¬ inItem (stack.map Prod.snd)) {item : ℕ}
    (hitem : (depths li stack).head? = some item) :
    (∃ x ∈ (depths ul stack).head?, item ≤ x) ∨ ∃ x ∈ (depths ol stack).head?, item ≤ x := by
  induction stack with
  | nil => cases hitem
  | cons top below ih =>
    obtain ⟨start, name⟩ := top
    rw [depths] at hitem ⊢
    rw [depths]
    by_cases hul : name = ul
    · subst hul
      rw [if_neg (by decide)] at hitem
      exact .inl ⟨below.length, by simp, (depths_lt (List.mem_of_head? hitem)).le⟩
    · by_cases hol : name = ol
      · subst hol
        rw [if_neg (by decide)] at hitem
        exact .inr ⟨below.length, by simp, (depths_lt (List.mem_of_head? hitem)).le⟩
      · have hin : inItem (((start, name) :: below).map Prod.snd) ↔ name = li ∨ inItem (below.map Prod.snd) := by
          simp [inItem, hul, hol, eq_comm]
        rw [hin, not_or] at h
        rw [if_neg h.1] at hitem
        rw [if_neg hul, if_neg hol]
        exact ih h.2 hitem

theorem Consistent.step_start {m : Matching} (h : Consistent m) (pos : ℕ) {name : Text} (attributes : Text)
    (hvoid : name ∉ VOID) (hitem : name = li → ¬ inItem (m.stack.map Prod.snd))
    (hparagraph : name ∈ CLOSES_P → (m.stack.map Prod.snd).head? ≠ some p) :
    m.step pos (.start name attributes) = m.push pos name := by
  have hclose : m.closeItem pos name = m := by
    rw [Matching.closeItem]
    split
    · rename_i hname
      dsimp only
      split
      · rename_i item hfilter
        rw [Option.filter_eq_some_iff, Matching.innermost, Matching.innermost, Matching.innermost, h, h, h] at hfilter
        have hkept := all_max (item_kept (hitem hname) hfilter.1)
        rw [hfilter.2] at hkept
        cases hkept
      · rfl
    · rfl
  have hblock : m.closeParagraph pos name = m := by
    rw [Matching.closeParagraph, if_neg]
    rintro ⟨hname, htop⟩
    refine hparagraph hname ?_
    rcases hstack : m.stack with _ | ⟨⟨start, found⟩, below⟩
    · rw [hstack] at htop
      cases htop
    · rw [hstack] at htop
      exact congrArg some (of_decide_eq_true htop)
  rw [Matching.step, if_neg hvoid, hclose, hblock]

/-! ### A run -/

theorem Matching.run_append (m : Matching) (pos : ℕ) (before after : List Token) :
    m.run pos (before ++ after) = (m.run pos before).run (pos + before.length) after := by
  induction before generalizing m pos with
  | nil => rfl
  | cons token before ih =>
    rw [List.cons_append, run, run, ih, List.length_cons, Nat.add_right_comm, Nat.add_assoc]

theorem Matching.run_pushText (m : Matching) (pos : ℕ) (pending : Text) : m.run pos (pushText pending) = m := by
  rw [pushText]
  split <;> rfl

theorem Forest.tokens_element (text : Glyphs) (tag : Tag) (children rest : Forest) (start : ℕ) :
    (element text tag children rest).tokens =
      pushText text.write ++ ((⟨start, tag, children⟩ : Occurrence).tokens ++ rest.tokens) := by
  rw [tokens, Occurrence.tokens]
  simp

/-- An element's tokens, from its start tag to its end tag. -/
theorem Occurrence.finish_eq (e : Occurrence) : e.finish + 1 = e.start + e.tokens.length := by
  rw [finish, tokens]
  split
  · rfl
  · simp only [List.length_cons, List.length_append, List.length_nil]
    omega

/-- An element's tokens stand together among those of its forest. -/
theorem Forest.cut_tokens {f : Forest} {pos : ℕ} {e : Occurrence} {ancestors : List Text}
    (hwell : f.WellFormed ancestors) (h : e ∈ f.occurrences pos) :
    ∃ before after, f.tokens = before ++ (e.tokens ++ after) ∧ e.start = pos + before.length ∧
      (e.tag.void → e.children = done []) := by
  induction f generalizing pos ancestors with
  | done text => cases h
  | comment text body rest ih =>
    obtain ⟨before, after, htokens, hstart, hvoid⟩ := ih hwell.2 h
    refine ⟨pushText text.write ++ before, after, ?_, ?_, hvoid⟩
    · rw [tokens, htokens, List.append_assoc]
    · rw [hstart, List.length_append, Nat.add_assoc]
  | element text tag children rest ihchildren ih =>
    obtain ⟨hvoid, -, -, hchildren, hrest⟩ := hwell
    rcases List.mem_cons.mp h with rfl | h
    · exact ⟨pushText text.write, rest.tokens, tokens_element _ _ _ _ _, rfl, hvoid⟩
    · rw [tokens_element text tag children rest (pos + (pushText text.write).length)]
      rcases List.mem_append.mp h with h | h
      · obtain ⟨before, after, htokens, hstart, hempty⟩ := ihchildren hchildren h
        have hopen : tag.void = false := by
          rw [Bool.eq_false_iff]
          intro hv
          rw [hvoid hv] at h
          cases h
        refine ⟨pushText text.write ++ .start tag.element tag.writeAttributes :: before,
          after ++ .endTag tag.element :: rest.tokens, ?_, ?_, hempty⟩
        · simp [Occurrence.tokens, hopen, htokens]
        · rw [hstart, List.length_append, List.length_cons]
          dsimp only
          omega
      · obtain ⟨before, after, htokens, hstart, hempty⟩ := ih hrest h
        refine ⟨pushText text.write ++
          ((⟨pos + (pushText text.write).length, tag, children⟩ : Occurrence).tokens ++ before), after, ?_, ?_, hempty⟩
        · rw [htokens]
          simp
        · rw [hstart, List.length_append, List.length_append]
          dsimp only
          omega

/-- What the tokens of a forest do to a matching: the ancestors stay open, and its elements have their ends. -/
structure Ran (m m' : Matching) (pos : ℕ) (f : Forest) : Prop where
  stack : m'.stack = m.stack
  consistent : Consistent m'
  before : ∀ i < pos, m'.ends i = m.ends i
  finish : ∀ e ∈ f.occurrences pos, m'.ends e.start = e.finish

/-- An element starts where its forest does at the earliest, and ends where its forest does at the latest. -/
theorem Forest.start_mem {f : Forest} {pos : ℕ} {e : Occurrence} {ancestors : List Text}
    (hwell : f.WellFormed ancestors) (h : e ∈ f.occurrences pos) :
    pos ≤ e.start ∧ e.start < pos + f.tokens.length := by
  obtain ⟨before, after, htokens, hstart, -⟩ := cut_tokens hwell h
  have hfinish := e.finish_eq
  have hpos : 0 < e.tokens.length := by
    rw [Occurrence.tokens]
    exact Nat.succ_pos _
  rw [htokens, List.length_append, List.length_append]
  omega

/-- What the tokens of an element do to a matching: it is open no more, and has its end. -/
structure Closed (m m' : Matching) (e : Occurrence) : Prop where
  stack : m'.stack = m.stack
  consistent : Consistent m'
  before : ∀ i < e.start, m'.ends i = m.ends i
  self : m'.ends e.start = e.finish
  inside : ∀ c ∈ e.children.occurrences (e.start + 1), m'.ends c.start = c.finish

theorem closed_void {m : Matching} {e : Occurrence} (hm : Consistent m) (hvoid : e.tag.void)
    (hempty : e.children = .done []) : Closed m (m.run e.start e.tokens) e := by
  have hrun : m.run e.start e.tokens = { m with ends := Function.update m.ends e.start e.start } := by
    rw [Occurrence.tokens, if_pos hvoid, Matching.run, Matching.step, if_pos (of_decide_eq_true hvoid)]
    rfl
  rw [hrun]
  refine ⟨rfl, hm, fun i hi => Function.update_of_ne hi.ne _ _, ?_, fun c hc => ?_⟩
  · rw [Occurrence.finish, if_pos hvoid]
    exact Function.update_self _ _ _
  · rw [hempty] at hc
    cases hc

/-- The element is opened, its children run, and its end tag finds it on top. -/
theorem closed_element {m : Matching} {e : Occurrence} (hm : Consistent m) (hvoid : e.tag.void = false)
    (hitem : e.tag.element = li → ¬ inItem (m.stack.map Prod.snd))
    (hparagraph : e.tag.element ∈ CLOSES_P → (m.stack.map Prod.snd).head? ≠ some p)
    (hwell : e.children.WellFormed (e.tag.element :: m.stack.map Prod.snd))
    (hinside : Ran (m.push e.start e.tag.element)
      ((m.push e.start e.tag.element).run (e.start + 1) e.children.tokens) (e.start + 1) e.children) :
    Closed m (m.run e.start e.tokens) e := by
  have hopened := hm.step_start e.start e.tag.writeAttributes (of_decide_eq_false hvoid) hitem hparagraph
  obtain ⟨hstack, hconsistent, hends⟩ :=
    hinside.consistent.step_endTag (e.start + 1 + e.children.tokens.length) hinside.stack
  have hrun : m.run e.start e.tokens =
      ((m.push e.start e.tag.element).run (e.start + 1) e.children.tokens).step
        (e.start + 1 + e.children.tokens.length) (.endTag e.tag.element) := by
    simp only [Occurrence.tokens, hvoid, Bool.false_eq_true, if_false]
    rw [Matching.run, hopened, Matching.run_append]
    rfl
  rw [hrun]
  refine ⟨hstack, hconsistent, fun i hi => ?_, ?_, fun c hc => ?_⟩
  · rw [hends, Function.update_of_ne hi.ne, hinside.before i (hi.trans (Nat.lt_succ_self _))]
    rfl
  · rw [hends, Function.update_self, Occurrence.finish, hvoid]
    rfl
  · have hlt := (Forest.start_mem hwell hc).1
    rw [hends, Function.update_of_ne (by omega)]
    exact hinside.finish c hc

theorem Forest.ran (f : Forest) {m : Matching} (pos : ℕ) (hm : Consistent m)
    (hwell : f.WellFormed (m.stack.map Prod.snd)) : Ran m (m.run pos f.tokens) pos f := by
  induction f generalizing m pos with
  | done text =>
    rw [tokens, Matching.run_pushText]
    exact ⟨rfl, hm, fun _ _ => rfl, fun e he => absurd he List.not_mem_nil⟩
  | comment text body rest ih =>
    rw [tokens, Matching.run_append, Matching.run_pushText]
    have hrest := ih (pos + (pushText text.write).length) hm hwell.2
    exact ⟨hrest.stack, hrest.consistent, fun i hi => hrest.before i (by omega), hrest.finish⟩
  | element text tag children rest ihchildren ih =>
    obtain ⟨hempty, hitem, hparagraph, hchildren, hrest⟩ := hwell
    let e : Occurrence := ⟨pos + (pushText text.write).length, tag, children⟩
    have hclosed : Closed m (m.run e.start e.tokens) e := by
      rcases hvoid : tag.void with _ | _
      · exact closed_element (e := e) hm hvoid hitem hparagraph hchildren
          (ihchildren (e.start + 1) (hm.push e.start tag.element) hchildren)
      · exact closed_void hm hvoid (hempty hvoid)
    have hafter := ih (e.start + e.tokens.length) hclosed.consistent (hclosed.stack ▸ hrest)
    have hlt : e.start < e.start + e.tokens.length := by
      rw [← e.finish_eq, Occurrence.finish]
      split
      · exact Nat.lt_succ_self _
      · omega
    rw [tokens_element text tag children rest e.start, Matching.run_append, Matching.run_pushText,
      Matching.run_append]
    refine ⟨hafter.stack.trans hclosed.stack, hafter.consistent, fun i hi => ?_, fun c hc => ?_⟩
    · have hi : i < e.start := by
        change i < pos + (pushText text.write).length
        omega
      exact (hafter.before i (hi.trans hlt)).trans (hclosed.before i hi)
    · rcases List.mem_cons.mp hc with rfl | hc
      · exact (hafter.before _ hlt).trans hclosed.self
      · rcases List.mem_append.mp hc with hc | hc
        · have hend : c.start < e.start + 1 + children.tokens.length := (start_mem hchildren hc).2
          have hin : c.start < e.start + e.tokens.length := by
            rcases hvoid : tag.void with _ | _
            · have hlength : e.tokens.length = children.tokens.length + 2 := by
                simp only [Occurrence.tokens, e, hvoid, Bool.false_eq_true, if_false, List.length_cons,
                  List.length_append, List.length_nil]
              omega
            · rw [hempty hvoid] at hc
              cases hc
          exact (hafter.before _ hin).trans (hclosed.inside c hc)
        · exact hafter.finish c hc

theorem Forest.matchEnds_tokens (f : Forest) (hwell : f.WellFormed []) {e : Occurrence}
    (he : e ∈ f.occurrences 0) : matchEnds f.tokens e.start = e.finish := by
  have hran := f.ran 0 consistent_init hwell
  rw [matchEnds, Matching.closeDownTo, hran.stack]
  exact hran.finish e he

/-! ### Text -/

theorem Tag.decode_gap (tag : Tag) (rest : Text) :
    decodeEntities (tag.gap ++ rest) = tag.gap ++ decodeEntities rest := by
  rw [gap]
  split
  · rw [List.singleton_append, decodeEntities, if_pos (by decide)]
    rfl
  · rfl

theorem flatMap_pushText (t : Text) : (pushText t).flatMap rawText = t := by
  rw [pushText]
  split
  · rename_i hnil
    exact hnil.symm
  · exact List.append_nil t

theorem rawText_start (tag : Tag) (attributes : Text) : rawText (.start tag.element attributes) = tag.gap := rfl

theorem rawText_endTag (tag : Tag) : rawText (.endTag tag.element) = tag.gap := rfl

/-- The text gathered over the tokens of a forest, decoded. -/
theorem Forest.decode (f : Forest) (rest : Text) :
    decodeEntities (f.tokens.flatMap rawText ++ rest) = f.content ++ decodeEntities rest := by
  induction f generalizing rest with
  | done text =>
    rw [tokens, flatMap_pushText, content, text.decode]
  | comment text body tail ih =>
    rw [tokens, content, List.flatMap_append, flatMap_pushText, List.append_assoc, text.decode, ih, List.append_assoc]
  | element text tag children tail ihchildren ih =>
    have hinside : ∀ rest : Text,
        decodeEntities ((if tag.void then [] else children.tokens ++ [.endTag tag.element]).flatMap rawText ++ rest) =
          (if tag.void then [] else children.content ++ tag.gap) ++ decodeEntities rest := by
      intro rest
      split
      · rfl
      · rw [List.flatMap_append, List.append_assoc, ihchildren, List.flatMap_singleton, rawText_endTag,
          tag.decode_gap, List.append_assoc]
    simp only [tokens, content, List.flatMap_append, List.flatMap_cons, flatMap_pushText, rawText_start,
      List.append_assoc, text.decode, tag.decode_gap, hinside, ih]

theorem Tag.less_notMem_gap (tag : Tag) : '<' ∉ tag.gap := by
  rw [gap]
  split
  · decide
  · exact List.not_mem_nil

theorem Forest.less_notMem (f : Forest) : '<' ∉ f.tokens.flatMap rawText := by
  induction f with
  | done text =>
    rw [tokens, flatMap_pushText]
    exact text.less_notMem
  | comment text body tail ih =>
    rw [tokens, List.flatMap_append, flatMap_pushText, List.mem_append, not_or]
    exact ⟨text.less_notMem, ih⟩
  | element text tag children tail ihchildren ih =>
    rw [tokens, List.flatMap_append, flatMap_pushText, List.flatMap_cons, List.flatMap_append, rawText_start,
      List.mem_append, List.mem_append, List.mem_append]
    rintro (h | h | h | h)
    · exact text.less_notMem h
    · exact tag.less_notMem_gap h
    · split at h
      · cases h
      · rw [List.flatMap_append, List.mem_append, List.flatMap_singleton, rawText_endTag] at h
        exact h.elim ihchildren tag.less_notMem_gap
    · exact ih h

theorem Forest.plainText_tokens (f : Forest) : plainText (f.tokens.flatMap rawText) = collapse f.content := by
  have hdecode := f.decode []
  rw [List.append_nil, decodeEntities, List.append_nil] at hdecode
  rw [plainText, stripTags_eq_self _ f.less_notMem, hdecode]

/-! ### The page -/

/-- The tokens of a page about an element that is not void: up to its start tag, its children's, and the rest. -/
theorem Occurrence.around (e : Occurrence) (hvoid : e.tag.void = false) {before : List Token} (after : List Token)
    (hstart : e.start = before.length) :
    ∃ opened : List Token, opened.length = e.start + 1 ∧ e.finish = opened.length + e.children.tokens.length ∧
      before ++ (e.tokens ++ after) = opened ++ (e.children.tokens ++ .endTag e.tag.element :: after) := by
  refine ⟨before ++ [.start e.tag.element e.tag.writeAttributes], ?_, ?_, ?_⟩
  · rw [List.length_append, List.length_singleton, hstart]
  · rw [finish, hvoid, List.length_append, List.length_singleton, hstart]
    rfl
  · simp [tokens, hvoid]

/-- The tokens inside an element are those of its children. -/
theorem Occurrence.inside (e : Occurrence) (hempty : e.tag.void → e.children = .done []) {before : List Token}
    (after : List Token) (hstart : e.start = before.length) :
    ((before ++ (e.tokens ++ after)).take e.finish).drop (min (e.start + 1) e.finish) = e.children.tokens := by
  rcases hvoid : e.tag.void with _ | _
  · obtain ⟨opened, hlength, hfinish, hall⟩ := e.around hvoid after hstart
    rw [hall, hfinish, ← hlength, Nat.min_eq_left (Nat.le_add_right _ _), List.take_length_add_append,
      List.drop_left, List.take_left]
  · have hfinish : e.finish = before.length := by rw [finish, if_pos hvoid, hstart]
    rw [hfinish, hstart, Nat.min_eq_right (Nat.le_succ _), List.take_left, List.drop_length, hempty hvoid]
    rfl

/-- A page read back: its tokens, and of each element where it starts, where it ends, its attributes, and its
text. -/
theorem Forest.parse_write (f : Forest) (hwell : f.WellFormed []) :
    (Document.parse f.write).tokens = f.tokens ∧
      ∀ e ∈ f.occurrences 0,
        f.tokens[e.start]? = some (.start e.tag.element e.tag.writeAttributes) ∧
        (e.tag.void = false → f.tokens[(Document.parse f.write).endOf e.start]? = some (.endTag e.tag.element)) ∧
        (Document.parse f.write).endOf e.start = e.finish ∧
        (∀ name, attributeOf e.tag.writeAttributes name = (e.tag.value name).map collapse) ∧
        (Document.parse f.write).text e.start = collapse e.children.content := by
  have hpage : (Document.parse f.write).tokens = f.tokens := f.tokenize_write hwell
  refine ⟨hpage, fun e he => ?_⟩
  obtain ⟨before, after, htokens, hstart, hempty⟩ := cut_tokens hwell he
  rw [Nat.zero_add] at hstart
  have hends : (Document.parse f.write).endOf e.start = e.finish := by
    rw [Document.endOf, Document.parse, f.tokenize_write hwell]
    exact f.matchEnds_tokens hwell he
  refine ⟨?_, fun hvoid => ?_, hends, e.tag.attributeOf, ?_⟩
  · rw [htokens, hstart, List.getElem?_append_right le_rfl, Nat.sub_self]
    rfl
  · obtain ⟨opened, -, hfinish, hall⟩ := e.around hvoid after hstart
    rw [hends, htokens, hall, hfinish, List.getElem?_append_right (Nat.le_add_right _ _), Nat.add_sub_cancel_left,
      List.getElem?_append_right le_rfl, Nat.sub_self]
    rfl
  · rw [Document.text, Document.inside, hends, Document.textIn, hpage, htokens, e.inside hempty after hstart]
    exact e.children.plainText_tokens

/-- A page with an attribute, a comment, a void element and two entities. -/
def menu : Forest :=
  have all {P : Char → Prop} [DecidablePred P] {s : Text} : s.all (fun c => P c) → ∀ c ∈ s, P c :=
    List.all_iff_forall_prop.mp
  let title : Attribute :=
    { before := [' '], name := ['T'], beforeEquals := ['\u00a0'], afterEquals := ['\n'], quote := '\'',
      value := [.plain '>' (by decide), .reference ['a', 'm', 'p'] '&' (.named (by decide))], before_ne := by decide,
      before_space := all (by decide), name_ne := by decide, name_char := all (by decide), beforeEquals_space := all (by decide),
      afterEquals_space := all (by decide), quote_char := by decide, value_char := by decide }
  let container : Tag :=
    { name := ['D', 'i', 'v'], attributes := [title], space := [], name_head := by decide, name_char := all (by decide),
      name_html := by decide, space_space := all (by decide) }
  let lineBreak : Tag :=
    { name := ['b', 'r'], attributes := [], space := ['\n'], name_head := by decide, name_char := all (by decide),
      name_html := by decide, space_space := all (by decide) }
  let less : Glyph := .reference ['#', '6', '0'] '<' (.decimal (by decide) (all (by decide)) (by decide) (by decide))
  .element [] container
    (.comment [.plain '4' (by decide)] ['-'] (.element [less] lineBreak (.done []) (.done [.plain '5' (by decide)])))
    (.done [])

theorem menu_wellFormed : menu.WellFormed [] := by
  refine ⟨fun h => absurd h (by decide), fun h => absurd h (by decide), fun _ => by simp, ⟨by decide, ?_⟩, trivial⟩
  exact ⟨fun _ => rfl, fun h => absurd h (by decide), fun h => absurd h (by decide), trivial, trivial⟩

theorem parse_write_menu :
    (Document.parse menu.write).tokens = menu.tokens ∧
      ∀ e ∈ menu.occurrences 0, (Document.parse menu.write).text e.start = collapse e.children.content :=
  have hparse := menu.parse_write menu_wellFormed
  ⟨hparse.1, fun e he => (hparse.2 e he).2.2.2.2⟩

/-- A name that starts with a digit opens no tag; a `>` ends a tag after an `=` and a no-break space; blocks are
set apart; of the names of an entity, XML's are known. -/
theorem written_otherwise :
    tokenize "<1></1>".toList = [.text "<1>".toList, .endTag ['1']] ∧
      tokenize "<b t=\u00a0\"x>y\">z</b>".toList =
        [.start ['b'] " t=\u00a0\"x".toList, .text "y\">z".toList, .endTag ['b']] ∧
      (Document.parse "<div>un<p>deux</p></div>".toList).text 0 = "un deux".toList ∧
      (Document.parse "<b>&AMP;</b>".toList).text 0 = "&AMP;".toList := by
  decide +kernel

end Home.Recipes.Html
