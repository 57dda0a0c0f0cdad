import ManageOurHome.Rgpd.Markdown

/-! @src apps/shared/src/validation/rgpd.rs | layer:proof | family:legal documents

    What the markdown of a legal document becomes is elements and text, written as HTML: its tags are the elements' own,
    and its text is the document's, in its order, but for its markers. A link leads elsewhere only where its URL starts
    with two slashes.

        [x](/y)    ──▶  <a href="/y">x</a>          on this site
        [x](//y)   ──▶  <a href="//y">x</a>         at the host y -/

namespace Home.Rgpd

open HttpGuard (splitOnce)
open Recipes (linesFrom trimStart)
open Markup (Forest escape escapeChar Unescaped escape_cons escape_append isPrefixOf_escape)

variable {c d : Char} {rest chars before after label url content next needle u v s t text : Text} {len : ℕ}

/-! ### A scan of what is escaped -/

theorem escapeHtml_eq (s : Text) : escapeHtml s = escape s := by
  have happend : ∀ u v, escapeHtml (u ++ v) = escapeHtml u ++ escapeHtml v := by
    intro u v
    simp only [escapeHtml, replace, List.flatMap_append]
  induction s with
  | nil => rfl
  | cons c s ih =>
    rw [← List.singleton_append, happend, ih, escape_append]
    congr 1
    by_cases hamp : c = '&'
    · subst hamp
      decide
    by_cases hlt : c = '<'
    · subst hlt
      decide
    by_cases hgt : c = '>'
    · subst hgt
      decide
    by_cases hquot : c = '"'
    · subst hquot
      decide
    simp [escapeHtml, replace, escape, escapeChar, hamp, hlt, hgt, hquot]

/-- The markers within a text, and the space. -/
def Marking (d : Char) : Prop := d ∈ ['`', '*', '[', ']', '(', ')', ' ']

theorem Marking.cases {P : Char → Prop} (h : Marking d) (hP : ∀ d ∈ ['`', '*', '[', ']', '(', ')', ' '], P d) : P d := hP d h

theorem Marking.unescaped (h : Marking d) : Unescaped d := h.cases (P := Unescaped) (by unfold Unescaped; decide)

theorem not_mem_escapeChar (hd : Marking d) (h : c ≠ d) : d ∉ escapeChar c := by
  have hother : Markup.isLetter d = false ∧ d ≠ '&' ∧ d ≠ ';' :=
    hd.cases (P := fun d => Markup.isLetter d = false ∧ d ≠ '&' ∧ d ≠ ';') (by decide)
  rcases Markup.escapeChar_cases c with ⟨ref, hescape, -, hletters⟩ | ⟨hescape, -⟩
  · rw [hescape, List.cons_append, List.mem_cons, List.mem_append, List.mem_singleton]
    rintro (hamp | hmem | hsemi)
    · exact hother.2.1 hamp
    · exact Bool.false_ne_true (hother.1.symm.trans (hletters d hmem))
    · exact hother.2.2 hsemi
  · rw [hescape, List.mem_singleton]
    exact Ne.symm h

/-- What is escaped, and what is not. -/
theorem escape_cases (c : Char) : Unescaped c ∨ ∀ d, Marking d → c ≠ d ∧ d ∉ escapeChar c := by
  by_cases hc : Unescaped c
  · exact .inl hc
  · refine .inr fun d hd => ?_
    have hne : c ≠ d := by
      rintro rfl
      exact hc hd.unescaped
    exact ⟨hne, not_mem_escapeChar hd hne⟩

theorem splitOnce_skip (h : d ∉ u) (ds s : Text) :
    splitOnce (d :: ds) (u ++ s) = (splitOnce (d :: ds) s).map fun p => (u ++ p.1, p.2) := by
  induction u with
  | nil => simp
  | cons c u ih =>
    rw [List.mem_cons, not_or] at h
    have hnot : ¬(d :: ds : Text).isPrefixOf (c :: (u ++ s)) = true := by simp [h.1]
    rw [List.cons_append, splitOnce, if_neg hnot, ih h.2, Option.map_map]
    rfl

/-- The next marker of what is escaped is that of the text. -/
theorem splitOnce_escape (d : Char) (ds : Text) (h : ∀ x ∈ d :: ds, Marking x) (s : Text) :
    splitOnce (d :: ds) (escape s) = (splitOnce (d :: ds) s).map fun p => (escape p.1, escape p.2) := by
  have hneedle : ∀ x ∈ d :: ds, Unescaped x := fun x hx => (h x hx).unescaped
  induction s with
  | nil => rfl
  | cons c s ih =>
    by_cases hstarts : (d :: ds : Text).isPrefixOf (c :: s) = true
    · obtain ⟨t, ht⟩ := List.isPrefixOf_iff_prefix.mp hstarts
      have hescape : escape (c :: s) = d :: ds ++ escape t := by
        rw [← ht, escape_append, Markup.escape_of_unescaped hneedle]
      have hstarts' : (d :: ds : Text).isPrefixOf (d :: (ds ++ escape t)) = true :=
        List.isPrefixOf_iff_prefix.mpr (List.prefix_append _ _)
      rw [splitOnce, if_pos hstarts, hescape, List.cons_append, splitOnce, if_pos hstarts', ← ht]
      simp [escape]
    · rw [splitOnce, if_neg hstarts, Option.map_map]
      rcases escape_cases c with hc | hc
      · have hstarts' : ¬(d :: ds : Text).isPrefixOf (c :: escape s) = true := by
          rw [← escape_cons hc, isPrefixOf_escape hneedle]
          exact hstarts
        rw [escape_cons hc, splitOnce, if_neg hstarts', ih, Option.map_map]
        refine congrArg (Option.map · _) (funext fun p => ?_)
        exact Prod.ext (escape_cons hc p.1).symm rfl
      · have hskip : escape (c :: s) = escapeChar c ++ escape s := rfl
        rw [hskip, splitOnce_skip (hc d (h d List.mem_cons_self)).2, ih, Option.map_map]
        rfl

theorem backtickRun_escape (s : Text) : backtickRun (escape s) = backtickRun s := by
  induction s with
  | nil => rfl
  | cons c s ih =>
    by_cases hc : c = '`'
    · subst hc
      rw [escape_cons (by unfold Unescaped; decide)]
      simpa [backtickRun] using ih
    · obtain ⟨x, u, hescape, hx⟩ := Markup.head_escapeChar (d := '`') (by unfold Unescaped; decide) hc
      rw [show escape (c :: s) = escapeChar c ++ escape s from rfl, hescape]
      simp [backtickRun, hx, hc]

theorem escape_take (s : Text) : (escape s).take (backtickRun s) = escape (s.take (backtickRun s)) := by
  have htick : ∀ x ∈ List.replicate (backtickRun s) '`', Unescaped x := fun x hx => by
    rw [List.eq_of_mem_replicate hx]
    unfold Unescaped
    decide
  rw [← backtickRun_escape, take_backtickRun, backtickRun_escape, take_backtickRun, Markup.escape_of_unescaped htick]

theorem escape_drop (s : Text) : (escape s).drop (backtickRun s) = escape (s.drop (backtickRun s)) := by
  refine @List.append_cancel_left _ ((escape s).take (backtickRun s)) _ _ ?_
  rw [List.take_append_drop, escape_take, ← escape_append, List.take_append_drop]

theorem closingBackticks_skip (h : '`' ∉ u) (s : Text) :
    closingBackticks len (u ++ s) = (closingBackticks len s).map fun p => (u ++ p.1, p.2) := by
  induction u with
  | nil => simp
  | cons c u ih =>
    rw [List.mem_cons, not_or] at h
    rw [List.cons_append, closingBackticks, if_neg (Ne.symm h.1), ih h.2, Option.map_map]
    rfl

theorem closingBackticks_escape (s : Text) :
    closingBackticks len (escape s) = (closingBackticks len s).map fun p => (escape p.1, escape p.2) := by
  induction hn : s.length using Nat.strong_induction_on generalizing s with
  | _ n ih =>
    cases s with
    | nil =>
      rw [show escape [] = [] from rfl, closingBackticks]
      rfl
    | cons c s =>
      by_cases hc : c = '`'
      · subst hc
        have hescape : escape ('`' :: s) = '`' :: escape s := escape_cons (by unfold Unescaped; decide) s
        have hpos := backtickRun_pos s
        have hrest := ih _ (by rw [← hn, List.length_drop, List.length_cons]; omega) (('`' :: s).drop (backtickRun ('`' :: s))) rfl
        have hrun := backtickRun_escape ('`' :: s)
        have htake := escape_take ('`' :: s)
        have hdrop := escape_drop ('`' :: s)
        rw [hescape] at hrun htake hdrop ⊢
        rw [closingBackticks, closingBackticks, if_pos rfl, if_pos rfl, hrun, htake, hdrop, hrest]
        split
        · rename_i hlen
          rw [← hlen, hdrop]
          rfl
        · rw [Option.map_map, Option.map_map]
          refine congrArg (Option.map · _) (funext fun p => ?_)
          exact Prod.ext (escape_append _ _).symm rfl
      · have hrest := ih _ (by rw [← hn, List.length_cons]; exact Nat.lt_succ_self _) s rfl
        have hskip : escape (c :: s) = escapeChar c ++ escape s := rfl
        rw [hskip, closingBackticks_skip (not_mem_escapeChar (d := '`') (by unfold Marking; decide) hc), hrest,
          closingBackticks, if_neg hc, Option.map_map, Option.map_map]
        rfl

theorem head_escape (hd : Unescaped d) (s : Text) : (escape s).head? = some d ↔ s.head? = some d := by
  cases s with
  | nil => exact Iff.rfl
  | cons c s =>
    by_cases hc : c = d
    · subst hc
      rw [escape_cons hd]
      exact Iff.rfl
    · obtain ⟨x, u, hescape, hx⟩ := Markup.head_escapeChar hd hc
      rw [show escape (c :: s) = escapeChar c ++ escape s from rfl, hescape, List.cons_append, List.head?_cons, List.head?_cons,
        Option.some.injEq, Option.some.injEq]
      exact ⟨fun h => absurd h hx, fun h => absurd h hc⟩

theorem tail_escape (hd : Unescaped d) (h : s.head? = some d) : (escape s).tail = escape s.tail := by
  obtain ⟨rest, rfl⟩ : ∃ rest, s = d :: rest := ⟨s.tail, List.eq_cons_of_mem_head? h⟩
  rw [escape_cons hd]
  rfl

theorem link_escape (s : Text) : link (escape s) = (link s).map fun p => (escape p.1, escape p.2.1, escape p.2.2) := by
  have hclose := splitOnce_escape ']' [] (by unfold Marking; decide) s
  have hparen : Unescaped '(' := by unfold Unescaped; decide
  rw [link, link, hclose]
  rcases splitOnce [']'] s with - | ⟨label, after⟩
  · rfl
  · simp only [Option.map_some, head_escape hparen after]
    split
    · rename_i hopen
      rw [tail_escape hparen hopen, splitOnce_escape ')' [] (by unfold Marking; decide), Option.map_map,
        Option.map_map]
      rfl
    · rfl

theorem isSafeUrl_escape (url : Text) : isSafeUrl (escape url) = isSafeUrl url := by
  have hplain : ∀ p ∈ ["https://".toList, "http://".toList, "mailto:".toList], ∀ d ∈ p, Unescaped d := by
    unfold Unescaped
    decide
  rw [isSafeUrl, isSafeUrl, isPrefixOf_escape (hplain _ (by decide)), isPrefixOf_escape (hplain _ (by decide)),
    isPrefixOf_escape (hplain _ (by decide))]
  simp only [head_escape (d := '/') (by unfold Unescaped; decide), head_escape (d := '#') (by unfold Unescaped; decide)]

/-- What is found, escaped. -/
def escaped : Span → Span
  | .code run content => .code run (escape content)
  | .strong content => .strong (escape content)
  | .link label url => .link (escape label) (escape url)
  | .literal text => .literal (escape text)

/-- A turn finds the same in a text and in the text escaped. -/
theorem turn_escape (hc : Unescaped c) (rest : Text) :
    turn c (escape rest) = (escaped (turn c rest).1, escape (turn c rest).2) := by
  have hescape : escape (c :: rest) = c :: escape rest := escape_cons hc rest
  have hrun := backtickRun_escape (c :: rest)
  have htake := escape_take (c :: rest)
  have hdrop := escape_drop (c :: rest)
  rw [hescape] at hrun htake hdrop
  have hliteral : ((.literal [c], escape rest) : Span × Text) = (escaped (.literal [c]), escape rest) := by
    rw [escaped, Markup.escape_of_unescaped fun d hd => List.mem_singleton.mp hd ▸ hc]
  rw [turn, turn]
  split
  · rw [hrun, htake, hdrop, closingBackticks_escape]
    rcases closingBackticks (backtickRun (c :: rest)) ((c :: rest).drop (backtickRun (c :: rest))) with - | ⟨content, next⟩
    · rfl
    · rfl
  · have hstar : Unescaped '*' := by unfold Unescaped; decide
    simp only [head_escape hstar rest]
    split
    · rename_i hstrong
      rw [tail_escape hstar hstrong.2, splitOnce_escape '*' ['*'] (by unfold Marking; decide)]
      rcases splitOnce ['*', '*'] rest.tail with - | ⟨content, next⟩
      · exact hliteral
      · rfl
    · split
      · rw [link_escape]
        rcases link rest with - | ⟨label, url, next⟩
        · exact hliteral
        · simp only [Option.map_some, isSafeUrl_escape]
          split
          · rfl
          · exact hliteral
      · exact hliteral

theorem turn_plain (h : ∀ d, Marking d → c ≠ d) (rest : Text) : turn c rest = (.literal [c], rest) := by
  rw [turn, if_neg (h '`' (by unfold Marking; decide)), if_neg fun hc => h '*' (by unfold Marking; decide) hc.1,
    if_neg (h '[' (by unfold Marking; decide))]

theorem spans_plain (h : ∀ d, Marking d → d ∉ u) (s : Text) :
    (spans (u ++ s)).flatMap Span.html = u ++ (spans s).flatMap Span.html := by
  induction u with
  | nil => rfl
  | cons c u ih =>
    have hc : ∀ d, Marking d → c ≠ d := by
      rintro d hd rfl
      exact h c hd List.mem_cons_self
    rw [List.cons_append, spans, turn_plain hc, List.flatMap_cons, ih fun d hd hmem => h d hd (List.mem_cons_of_mem _ hmem)]
    rfl

/-- A text is rendered as what is found in it, escaped. -/
theorem inline_eq (text : Text) : inline text = (spans text).flatMap fun s => (escaped s).html := by
  rw [inline, escapeHtml_eq]
  induction text using spans.induct with
  | case1 =>
    rw [show escape [] = [] from rfl, spans]
    rfl
  | case2 c rest ih =>
    rw [spans, List.flatMap_cons]
    rcases escape_cases c with hc | hc
    · rw [escape_cons hc, spans, turn_escape hc, List.flatMap_cons, ih]
    · have hturn := turn_plain (fun d hd => (hc d hd).1) rest
      rw [hturn] at ih ⊢
      rw [show escape (c :: rest) = escapeChar c ++ escape rest from rfl, spans_plain fun d hd => (hc d hd).2, ih]
      refine congrArg (· ++ _) ?_
      exact (List.flatMap_singleton _ _).symm

/-! ### The spaces of a code -/

/-- A space at each end, and more than spaces between. -/
def Padded (content mid : Text) : Prop := content = ' ' :: (mid ++ [' ']) ∧ ∃ c ∈ mid, c ≠ ' '

theorem unpadded_of_padded {mid : Text} (h : Padded content mid) : unpadded content = mid := by
  obtain ⟨rfl, c, hc, hne⟩ := h
  have hcond : 2 ≤ (' ' :: (mid ++ [' '])).length ∧ (' ' :: (mid ++ [' '])).head? = some ' ' ∧
      (' ' :: (mid ++ [' '])).getLast? = some ' ' ∧ ¬(' ' :: (mid ++ [' '])).all (· = ' ') = true := by
    refine ⟨by simp, rfl, ?_, fun hall => hne ?_⟩
    · rw [← List.cons_append, List.getLast?_concat]
    · have hmem : c ∈ ' ' :: (mid ++ [' ']) := List.mem_cons_of_mem _ (List.mem_append_left _ hc)
      simpa using List.all_eq_true.mp hall c hmem
  rw [unpadded, if_pos hcond, List.tail_cons, List.dropLast_concat]

theorem unpadded_of_not_padded (h : ∀ mid, ¬Padded content mid) : unpadded content = content := by
  rw [unpadded, if_neg]
  rintro ⟨hlength, hhead, hlast, hall⟩
  obtain ⟨rest, rfl⟩ : ∃ rest, content = ' ' :: rest := ⟨content.tail, List.eq_cons_of_mem_head? hhead⟩
  have hne : rest ≠ [] := by
    rintro rfl
    exact absurd hlength (by decide)
  rw [List.getLast?_cons_of_ne_nil hne] at hlast
  obtain ⟨mid, rfl⟩ := List.getLast?_eq_some_iff.mp hlast
  refine h mid ⟨rfl, ?_⟩
  by_contra hspaces
  push Not at hspaces
  refine hall (List.all_eq_true.mpr fun c hc => decide_eq_true ?_)
  simp only [List.mem_cons, List.mem_append, List.not_mem_nil, or_false] at hc
  rcases hc with hc | hc | hc
  · exact hc
  · exact hspaces c hc
  · exact hc

theorem escape_concat (hd : Marking d) {m : Text} (h : escape s = m ++ [d]) : ∃ mid, s = mid ++ [d] ∧ escape mid = m := by
  rcases List.eq_nil_or_concat s with rfl | ⟨init, c, rfl⟩
  · simp [escape] at h
  · rw [List.concat_eq_append] at h ⊢
    have hsplit : escape (init ++ [c]) = escape init ++ escapeChar c := by
      rw [escape_append]
      exact congrArg _ (List.flatMap_singleton _ _)
    rw [hsplit] at h
    by_cases hc : c = d
    · subst hc
      rw [hd.unescaped] at h
      exact ⟨init, rfl, List.append_cancel_right h⟩
    · obtain ⟨x, u, hescape, -⟩ := Markup.head_escapeChar hd.unescaped hc
      have hlast := congrArg List.getLast? h
      rw [List.getLast?_concat, List.getLast?_append_of_ne_nil _ (by rw [hescape]; exact List.cons_ne_nil _ _)] at hlast
      exact absurd (List.mem_of_getLast? hlast) (not_mem_escapeChar hd hc)

theorem padded_escape {mid : Text} (h : Padded content mid) : Padded (escape content) (escape mid) := by
  obtain ⟨rfl, c, hc, hne⟩ := h
  have hspace : Unescaped ' ' := by unfold Unescaped; decide
  obtain ⟨x, u, hescape, hx⟩ := Markup.head_escapeChar hspace hne
  refine ⟨?_, x, List.mem_flatMap.mpr ⟨c, hc, hescape ▸ List.mem_cons_self⟩, hx⟩
  rw [escape_cons hspace, escape_append, escape_cons hspace]
  rfl

/-- The spaces of a code are those of the code escaped. -/
theorem unpadded_escape (content : Text) : unpadded (escape content) = escape (unpadded content) := by
  by_cases h : ∃ mid, Padded content mid
  · obtain ⟨mid, hmid⟩ := h
    rw [unpadded_of_padded hmid, unpadded_of_padded (padded_escape hmid)]
  · rw [unpadded_of_not_padded fun mid hmid => h ⟨mid, hmid⟩, unpadded_of_not_padded]
    rintro m ⟨heq, c, hc, hne⟩
    have hspace : Marking ' ' := by unfold Marking; decide
    have hhead : content.head? = some ' ' := by
      rw [← head_escape hspace.unescaped, heq]
      rfl
    obtain ⟨rest, rfl⟩ : ∃ rest, content = ' ' :: rest := ⟨content.tail, List.eq_cons_of_mem_head? hhead⟩
    rw [escape_cons hspace.unescaped] at heq
    obtain ⟨mid, rfl, rfl⟩ := escape_concat hspace (List.cons.inj heq).2
    refine h ⟨mid, rfl, ?_⟩
    by_contra hspaces
    push Not at hspaces
    have hself : escape mid = mid := Markup.escape_of_unescaped fun d hd => hspaces d hd ▸ hspace.unescaped
    rw [hself] at hc
    exact hne (hspaces c hc)

/-! ### Elements and text -/

def textForest (t : Text) : Forest := .text t .nil

/-- An element without attributes. -/
def plainElement (name : Text) (inner : Forest) : Forest := .element name [] inner .nil

def Span.forest : Span → Forest
  | .code _ content => plainElement "code".toList (textForest (unpadded content))
  | .strong content => plainElement "strong".toList (textForest content)
  | .link label url => .element "a".toList [("href".toList, url)] (textForest label) .nil
  | .literal text => textForest text

def inlineForest (text : Text) : Forest := Forest.concat ((spans text).map Span.forest)

def listForest (items : List Text) : Forest :=
  plainElement "ul".toList (Forest.concat (textForest ['\n'] ::
    items.map fun i => (plainElement "li".toList (inlineForest i)).append (textForest ['\n'])))

def headerCell (c : Text) : Forest := .element "th".toList [("scope".toList, "col".toList)] (inlineForest c) .nil

def rowForest (row : List Text) : Forest :=
  (plainElement "tr".toList (Forest.concat (row.map fun c => plainElement "td".toList (inlineForest c)))).append
    (textForest ['\n'])

def tableForest (header : List Text) (rows : List (List Text)) : Forest :=
  .element "div".toList [("class".toList, "table-wrap".toList)]
    (plainElement "table".toList (Forest.concat [textForest ['\n'],
      plainElement "thead".toList (plainElement "tr".toList (Forest.concat (header.map headerCell))), textForest ['\n'],
      plainElement "tbody".toList (Forest.concat (textForest ['\n'] :: rows.map rowForest)), textForest ['\n']])) .nil

def Piece.forest : Piece → Forest
  | .heading level text => plainElement (headingName level) (inlineForest text)
  | .block .None => .nil
  | .block (.Paragraph lines) => plainElement "p".toList (inlineForest ([' '].intercalate lines))
  | .block (.List items) => listForest items
  | .block (.Table header rows) => tableForest header rows

def documentForest : List Piece → Forest
  | [] => .nil
  | [p] => p.forest
  | p :: q :: ps => p.forest.append (.text ['\n'] (documentForest (q :: ps)))

@[simp] theorem write_textForest (t : Text) : (textForest t).write = escape t := List.append_nil _

@[simp] theorem write_plainElement (name : Text) (inner : Forest) : (plainElement name inner).write =
    '<' :: name ++ '>' :: inner.write ++ '<' :: '/' :: name ++ ['>'] := by
  simp [plainElement, Forest.write]

/-- An element between its tags. -/
theorem write_between (opening closing : Text) {name : Text} (ho : opening = '<' :: name ++ ['>'])
    (hc : closing = '<' :: '/' :: name ++ ['>']) (inner : Forest) :
    (plainElement name inner).write = opening ++ inner.write ++ closing := by
  rw [write_plainElement, ho, hc]
  simp only [List.append_assoc, List.cons_append, List.nil_append]

theorem write_attribute {name attr value opening : Text}
    (ho : opening = '<' :: name ++ ' ' :: attr ++ ['=', '"'] ++ escape value ++ ['"', '>']) (closing : Text)
    (hc : closing = '<' :: '/' :: name ++ ['>']) (inner : Forest) :
    (Forest.element name [(attr, value)] inner .nil).write = opening ++ inner.write ++ closing := by
  rw [ho, hc]
  simp only [Forest.write, Forest.writeAttribute, List.flatMap_cons, List.flatMap_nil, List.append_assoc, List.cons_append,
    List.nil_append, List.append_nil]

theorem Span.forest_write (s : Span) : s.forest.write = (escaped s).html := by
  cases s with
  | code run content =>
    rw [Span.forest, write_between "<code>".toList "</code>".toList (by decide) (by decide),
      write_textForest, ← unpadded_escape]
    rfl
  | strong content =>
    rw [Span.forest, write_between "<strong>".toList "</strong>".toList (by decide) (by decide),
      write_textForest]
    rfl
  | link label url =>
    have hopen : "<a href=\"".toList ++ escape url ++ "\">".toList =
        '<' :: "a".toList ++ ' ' :: "href".toList ++ ['=', '"'] ++ escape url ++ ['"', '>'] := rfl
    rw [Span.forest, write_attribute hopen "</a>".toList (by decide), write_textForest]
    rfl
  | literal text => exact write_textForest text

theorem inlineForest_write (text : Text) : (inlineForest text).write = inline text := by
  rw [inlineForest, Markup.write_concat, List.flatMap_map, inline_eq]
  exact List.flatMap_congr fun s _ => s.forest_write

theorem listForest_write (items : List Text) : (listForest items).write = (Block.List items).html := by
  have hitem : ∀ i, ((plainElement "li".toList (inlineForest i)).append (textForest ['\n'])).write =
      "<li>".toList ++ inline i ++ "</li>\n".toList := by
    intro i
    rw [Markup.write_append, write_between "<li>".toList "</li>".toList (by decide) (by decide),
      inlineForest_write, write_textForest, List.append_assoc]
    rfl
  rw [listForest, write_between "<ul>".toList "</ul>".toList (by decide) (by decide),
    Markup.write_concat, List.flatMap_cons, List.flatMap_map, write_textForest, List.flatMap_congr fun i _ => hitem i]
  rfl

theorem rowForest_write (row : List Text) : (rowForest row).write =
    "<tr>".toList ++ row.flatMap (fun c => "<td>".toList ++ inline c ++ "</td>".toList) ++ "</tr>\n".toList := by
  have hcell : ∀ c, (plainElement "td".toList (inlineForest c)).write = "<td>".toList ++ inline c ++ "</td>".toList := by
    intro c
    rw [write_between "<td>".toList "</td>".toList (by decide) (by decide), inlineForest_write]
  rw [rowForest, Markup.write_append, write_between "<tr>".toList "</tr>".toList (by decide)
    (by decide), Markup.write_concat, List.flatMap_map, List.flatMap_congr fun c _ => hcell c, write_textForest,
    List.append_assoc]
  rfl

theorem headerCell_write (c : Text) : (headerCell c).write = "<th scope=\"col\">".toList ++ inline c ++ "</th>".toList := by
  have hopen : "<th scope=\"col\">".toList =
      '<' :: "th".toList ++ ' ' :: "scope".toList ++ ['=', '"'] ++ escape "col".toList ++ ['"', '>'] := by decide
  rw [headerCell, write_attribute hopen "</th>".toList (by decide), inlineForest_write]

theorem headForest_write (header : List Text) :
    (plainElement "thead".toList (plainElement "tr".toList (Forest.concat (header.map headerCell)))).write =
      "<thead><tr>".toList ++ header.flatMap (fun c => "<th scope=\"col\">".toList ++ inline c ++ "</th>".toList) ++
        "</tr></thead>".toList := by
  rw [write_between "<thead>".toList "</thead>".toList (by decide) (by decide),
    write_between "<tr>".toList "</tr>".toList (by decide) (by decide), Markup.write_concat,
    List.flatMap_map, List.flatMap_congr fun c _ => headerCell_write c,
    show "<thead><tr>".toList = "<thead>".toList ++ "<tr>".toList by decide,
    show "</tr></thead>".toList = "</tr>".toList ++ "</thead>".toList by decide]
  simp only [List.append_assoc]

theorem bodyForest_write (rows : List (List Text)) :
    (plainElement "tbody".toList (Forest.concat (textForest ['\n'] :: rows.map rowForest))).write =
      "<tbody>\n".toList ++ rows.flatMap (fun row => "<tr>".toList ++
        row.flatMap (fun c => "<td>".toList ++ inline c ++ "</td>".toList) ++ "</tr>\n".toList) ++ "</tbody>".toList := by
  rw [write_between "<tbody>".toList "</tbody>".toList (by decide) (by decide),
    Markup.write_concat, List.flatMap_cons, List.flatMap_map, List.flatMap_congr fun row _ => rowForest_write row,
    write_textForest, show "<tbody>\n".toList = "<tbody>".toList ++ escape ['\n'] by decide]
  simp only [List.append_assoc]

/-- The tags of a table, one after the other, are written as three texts. -/
theorem regroup {o t n h head h' thead b body b' tbody t' o' start middle last : Text} (hthead : thead = h ++ head ++ h')
    (htbody : tbody = b ++ body ++ b') (hstart : start = o ++ t ++ n ++ h) (hmiddle : middle = h' ++ n ++ b)
    (hlast : last = b' ++ n ++ t' ++ o') :
    o ++ (t ++ (n ++ (thead ++ (n ++ (tbody ++ (n ++ []))))) ++ t') ++ o' = start ++ head ++ middle ++ body ++ last := by
  rw [hthead, htbody, hstart, hmiddle, hlast]
  simp only [List.append_assoc, List.append_nil]

theorem wrapped_write (head body : Forest) :
    (Forest.element "div".toList [("class".toList, "table-wrap".toList)] (plainElement "table".toList
      (Forest.concat [textForest ['\n'], head, textForest ['\n'], body, textForest ['\n']])) .nil).write =
      "<div class=\"table-wrap\">".toList ++ ("<table>".toList ++ (escape ['\n'] ++ (head.write ++ (escape ['\n'] ++
        (body.write ++ (escape ['\n'] ++ []))))) ++ "</table>".toList) ++ "</div>".toList := by
  have hopen : "<div class=\"table-wrap\">".toList =
      '<' :: "div".toList ++ ' ' :: "class".toList ++ ['=', '"'] ++ escape "table-wrap".toList ++ ['"', '>'] := by decide
  rw [write_attribute hopen "</div>".toList (by decide), write_between "<table>".toList "</table>".toList (by decide) (by decide), Markup.write_concat, List.flatMap_cons, List.flatMap_cons,
    List.flatMap_cons, List.flatMap_cons, List.flatMap_cons, List.flatMap_nil, write_textForest]

theorem tableForest_write (header : List Text) (rows : List (List Text)) :
    (tableForest header rows).write = (Block.Table header rows).html := by
  have hstart : "<div class=\"table-wrap\"><table>\n<thead><tr>".toList =
      "<div class=\"table-wrap\">".toList ++ "<table>".toList ++ escape ['\n'] ++ "<thead><tr>".toList := by decide
  have hmiddle : "</tr></thead>\n<tbody>\n".toList = "</tr></thead>".toList ++ escape ['\n'] ++ "<tbody>\n".toList := by
    decide
  have hlast : "</tbody>\n</table></div>".toList =
      "</tbody>".toList ++ escape ['\n'] ++ "</table>".toList ++ "</div>".toList := by decide
  exact (wrapped_write _ _).trans (regroup (headForest_write header) (bodyForest_write rows) hstart hmiddle hlast)

theorem Piece.forest_write (p : Piece) : p.forest.write = p.html := by
  cases p with
  | heading level text =>
    rw [Piece.forest, write_plainElement, inlineForest_write]
    rfl
  | block b =>
    cases b with
    | None => rfl
    | Paragraph lines =>
      rw [Piece.forest, write_between "<p>".toList "</p>".toList (by decide) (by decide),
        inlineForest_write]
      rfl
    | List items => exact listForest_write items
    | Table header rows => exact tableForest_write header rows

/-- What is pushed out, piece by piece. -/
def pieces (md : Text) : List Piece := pushed id md

/-- The same page, its pieces written. -/
def Page.map {β : Type} (emit : Piece → β) (page : Page Piece) : Page β := ⟨page.block, page.out.map emit⟩

theorem flush_map {β : Type} (emit : Piece → β) (page : Page Piece) : flush emit (page.map emit) = (flush id page).map emit := by
  obtain ⟨block, out⟩ := page
  cases block <;> simp [flush, Page.map]

theorem addLine_map {β : Type} (emit : Piece → β) (page : Page Piece) (raw : Text) :
    addLine emit (page.map emit) raw = (addLine id page raw).map emit := by
  simp only [addLine, flush_map]
  by_cases hblank : trimStart (trimEnd raw) = []
  · rw [if_pos hblank, if_pos hblank]
  rw [if_neg hblank, if_neg hblank]
  rcases heading (trimStart (trimEnd raw)) with - | ⟨level, text⟩
  · rcases stripPrefix ['-', ' '] (trimStart (trimEnd raw)) with - | item
    · by_cases hbar : (trimStart (trimEnd raw)).head? = some '|'
      · rw [if_pos hbar, if_pos hbar]
        obtain ⟨block, out⟩ := page
        cases block <;> rfl
      · rw [if_neg hbar, if_neg hbar]
        obtain ⟨block, out⟩ := page
        cases block with
        | List items =>
          simp only [Page.map]
          rcases (trimEnd raw).head?.any isWhitespace with - | - <;> rcases items.getLast? with - | last <;> rfl
        | _ => rfl
    · obtain ⟨block, out⟩ := page
      cases block <;> rfl
  · simp [Page.map]

/-- What is pushed out is written piece by piece. -/
theorem pushed_eq {β : Type} (emit : Piece → β) (md : Text) : pushed emit md = (pieces md).map emit := by
  have hlines : ∀ (lines : List Text) (page : Page Piece),
      lines.foldl (addLine emit) (page.map emit) = (lines.foldl (addLine id) page).map emit := by
    intro lines
    induction lines with
    | nil => exact fun _ => rfl
    | cons line lines ih =>
      intro page
      rw [List.foldl_cons, addLine_map, ih, List.foldl_cons]
  rw [pushed, show (⟨.None, []⟩ : Page β) = Page.map emit ⟨.None, []⟩ from rfl, hlines, flush_map]
  rfl

theorem documentForest_write (ps : List Piece) :
    (documentForest ps).write = ['\n'].intercalate (ps.map Piece.html) := by
  induction ps with
  | nil => rfl
  | cons p ps ih =>
    cases ps with
    | nil => rw [documentForest, List.map_singleton, List.intercalate_singleton, p.forest_write]
    | cons q ps =>
      rw [documentForest, Markup.write_append, Forest.write, ih, p.forest_write, List.map_cons, List.map_cons,
        List.map_cons, List.intercalate_cons_cons, List.append_assoc]
      rfl

/-- What is rendered is the document, written. -/
theorem renderMarkdown_eq (md : Text) : renderMarkdown md = (documentForest (pieces md)).write := by
  rw [renderMarkdown, pushed_eq, documentForest_write]

/-! ### The elements of a document -/

/-- The elements but the links. -/
def fixedElements : List (Text × List (Text × Text)) :=
  [("h1".toList, []), ("h2".toList, []), ("h3".toList, []), ("p".toList, []), ("ul".toList, []), ("li".toList, []),
    ("div".toList, [("class".toList, "table-wrap".toList)]), ("table".toList, []), ("thead".toList, []),
    ("tbody".toList, []), ("tr".toList, []), ("th".toList, [("scope".toList, "col".toList)]), ("td".toList, []),
    ("code".toList, []), ("strong".toList, [])]

/-- The URLs of the links of a text. -/
def linksOf (text : Text) : List Text :=
  (spans text).filterMap fun
    | .link _ url => some url
    | _ => none

/-- The texts of a piece, in their order. -/
def Piece.texts : Piece → List Text
  | .heading _ text => [text]
  | .block .None => []
  | .block (.Paragraph lines) => [[' '].intercalate lines]
  | .block (.List items) => items
  | .block (.Table header rows) => header ++ rows.flatten

/-- The URLs of the links of a document. -/
def links (md : Text) : List Text := ((pieces md).flatMap Piece.texts).flatMap linksOf

def Piece.Leveled : Piece → Prop
  | .heading level _ => level ∈ [1, 2, 3]
  | .block _ => True

section Elements

variable {P : Text → List (Text × Text) → Prop}

theorem each_plainElement {name : Text} {inner : Forest} (h : P name []) : (plainElement name inner).Each P ↔ inner.Each P := by
  rw [plainElement, Forest.Each, Forest.Each, and_true, and_iff_right h]

theorem each_textForest (t : Text) : (textForest t).Each P := trivial

theorem each_inline (hP : ∀ e ∈ fixedElements, P e.1 e.2) (text : Text) :
    (inlineForest text).Each P ↔ ∀ url ∈ linksOf text, P "a".toList [("href".toList, url)] := by
  have hcode : P "code".toList [] := hP ("code".toList, []) (by decide)
  have hstrong : P "strong".toList [] := hP ("strong".toList, []) (by decide)
  rw [inlineForest, Markup.each_concat, List.forall_mem_map]
  constructor
  · intro h url hurl
    obtain ⟨span, hspan, heq⟩ := List.mem_filterMap.mp hurl
    cases span with
    | link label url' =>
      obtain rfl : url' = url := Option.some.inj heq
      exact (h _ hspan).1
    | _ => cases heq
  · intro h span hspan
    cases span with
    | code run content => exact (each_plainElement hcode).mpr (each_textForest _)
    | strong content => exact (each_plainElement hstrong).mpr (each_textForest _)
    | link label url => exact ⟨h url (List.mem_filterMap.mpr ⟨_, hspan, rfl⟩), each_textForest _, trivial⟩
    | literal text => exact each_textForest _

theorem each_piece (hP : ∀ e ∈ fixedElements, P e.1 e.2) {p : Piece} (hlevel : p.Leveled) :
    p.forest.Each P ↔ ∀ text ∈ p.texts, (inlineForest text).Each P := by
  have hplain : ∀ name : Text, (name, []) ∈ fixedElements → P name [] := fun name h => hP (name, []) h
  cases p with
  | heading level text =>
    have hheading : ∀ level ∈ [1, 2, 3], (headingName level, []) ∈ fixedElements := by decide
    rw [Piece.forest, each_plainElement (hplain _ (hheading level hlevel)), Piece.texts, List.forall_mem_singleton]
  | block b =>
    cases b with
    | None => simp [Piece.forest, Piece.texts, Forest.Each]
    | Paragraph lines =>
      rw [Piece.forest, each_plainElement (hplain _ (by decide)), Piece.texts, List.forall_mem_singleton]
    | List items =>
      rw [Piece.forest, listForest, each_plainElement (hplain _ (by decide)), Markup.each_concat, List.forall_mem_cons,
        List.forall_mem_map, and_iff_right (each_textForest _)]
      refine forall₂_congr fun i _ => ?_
      rw [Markup.each_append, each_plainElement (hplain _ (by decide)), and_iff_left (each_textForest _)]
    | Table header rows =>
      have hcell : ∀ c, (headerCell c).Each P ↔ (inlineForest c).Each P := by
        intro c
        rw [headerCell, Forest.Each, Forest.Each, and_true,
          and_iff_right (hP ("th".toList, [("scope".toList, "col".toList)]) (by decide))]
      have hrow : ∀ row, (rowForest row).Each P ↔ ∀ c ∈ row, (inlineForest c).Each P := by
        intro row
        rw [rowForest, Markup.each_append, each_plainElement (hplain _ (by decide)), Markup.each_concat, List.forall_mem_map,
          and_iff_left (each_textForest _)]
        exact forall₂_congr fun c _ => each_plainElement (hplain _ (by decide))
      have hdiv := hP ("div".toList, [("class".toList, "table-wrap".toList)]) (by decide)
      rw [Piece.forest, tableForest, Forest.Each, Forest.Each, and_true, and_iff_right hdiv,
        each_plainElement (hplain _ (by decide)), Markup.each_concat, List.forall_mem_cons, List.forall_mem_cons,
        List.forall_mem_cons, List.forall_mem_cons, List.forall_mem_singleton, and_iff_right (each_textForest _),
        and_iff_right (each_textForest _), and_iff_left (each_textForest _), each_plainElement (hplain _ (by decide)),
        each_plainElement (hplain _ (by decide)), each_plainElement (hplain _ (by decide)), Markup.each_concat,
        Markup.each_concat, List.forall_mem_cons, List.forall_mem_map, List.forall_mem_map, and_iff_right (each_textForest _)]
      rw [Piece.texts]
      simp only [hcell, hrow, List.mem_append, List.mem_flatten]
      constructor
      · rintro ⟨hheader, hrows⟩ c (hc | ⟨row, hrow, hc⟩)
        · exact hheader c hc
        · exact hrows row hrow c hc
      · exact fun h => ⟨fun c hc => h c (.inl hc), fun row hrow c hc => h c (.inr ⟨row, hrow, hc⟩)⟩

/-- What holds of the fixed elements holds of all of them, where it does of the links. -/
theorem each_document (hP : ∀ e ∈ fixedElements, P e.1 e.2) {ps : List Piece} (hlevel : ∀ p ∈ ps, p.Leveled) :
    (documentForest ps).Each P ↔
      ∀ url ∈ (ps.flatMap Piece.texts).flatMap linksOf, P "a".toList [("href".toList, url)] := by
  have hpieces : (documentForest ps).Each P ↔ ∀ p ∈ ps, p.forest.Each P := by
    clear hlevel
    induction ps with
    | nil => simp [documentForest, Forest.Each]
    | cons p ps ih =>
      cases ps with
      | nil => rw [documentForest, List.forall_mem_singleton]
      | cons q ps => rw [documentForest, Markup.each_append, Forest.Each, ih, List.forall_mem_cons,
        List.forall_mem_cons, List.forall_mem_cons]
  rw [hpieces]
  constructor
  · intro h url hurl
    obtain ⟨text, htext, hurl⟩ := List.mem_flatMap.mp hurl
    obtain ⟨p, hp, htext⟩ := List.mem_flatMap.mp htext
    exact (each_inline hP text).mp ((each_piece hP (hlevel p hp)).mp (h p hp) text htext) url hurl
  · intro h p hp
    refine (each_piece hP (hlevel p hp)).mpr fun text htext => (each_inline hP text).mpr fun url hurl => ?_
    exact h url (List.mem_flatMap.mpr ⟨text, List.mem_flatMap.mpr ⟨p, hp, htext⟩, hurl⟩)

end Elements

end Home.Rgpd
