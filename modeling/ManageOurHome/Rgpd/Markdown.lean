import ManageOurHome.HttpGuard.Origin
import ManageOurHome.Lib.Markup
import ManageOurHome.Recipes.Steps

/-! @src apps/shared/src/validation/rgpd.rs | layer:model | family:legal documents

    The markdown of the legal documents, as HTML: headings, paragraphs, lists, tables, and inside of them code, strong
    text and links. A text is escaped first, then its markers are looked for, one piece after the other.

        ## Vos **droits**    ──▶   <h2>Vos <strong>droits</strong></h2>
        [CNIL](https://…)          <p><a href="https://…">CNIL</a></p> -/

namespace Home.Rgpd

open HttpGuard (splitOnce)
open Recipes (linesFrom trimStart)

/-! ### Inside of a block -/

/-- `str::replace` of a character. -/
def replace (c : Char) (with' s : Text) : Text := s.flatMap fun d => if d = c then with' else [d]

def escapeHtml (s : Text) : Text :=
  replace '"' "&quot;".toList (replace '>' "&gt;".toList (replace '<' "&lt;".toList (replace '&' "&amp;".toList s)))

def isSafeUrl (url : Text) : Bool :=
  "https://".toList.isPrefixOf url || "http://".toList.isPrefixOf url || "mailto:".toList.isPrefixOf url ||
    url.head? = some '/' || url.head? = some '#'

def backtickRun (chars : Text) : ℕ := (chars.takeWhile (· = '`')).length

theorem backtickRun_pos (rest : Text) : 0 < backtickRun ('`' :: rest) := by simp [backtickRun]

/-- What is before the first run of exactly `len` backticks, and what is after it. -/
def closingBackticks (len : ℕ) : Text → Option (Text × Text)
  | [] => none
  | c :: rest =>
    if c = '`' then
      if backtickRun (c :: rest) = len then some ([], (c :: rest).drop len)
      else
        (closingBackticks len ((c :: rest).drop (backtickRun (c :: rest)))).map fun (content, next) =>
          ((c :: rest).take (backtickRun (c :: rest)) ++ content, next)
    else (closingBackticks len rest).map fun (content, next) => (c :: content, next)
  termination_by chars => chars.length
  decreasing_by
    · rename_i hc _
      subst hc
      have := backtickRun_pos rest
      simp only [List.length_drop, List.length_cons]
      omega
    · simp

/-- The label and the URL of a link whose `[` is read, and what is after its `)`. -/
def link (chars : Text) : Option (Text × Text × Text) :=
  match splitOnce [']'] chars with
  | none => none
  | some (label, after) =>
    if after.head? = some '(' then (splitOnce [')'] after.tail).map fun (url, next) => (label, url, next) else none

/-- One space is taken off each end of a code, where it has both and is not all spaces. -/
def unpadded (content : Text) : Text :=
  if 2 ≤ content.length ∧ content.head? = some ' ' ∧ content.getLast? = some ' ' ∧ ¬content.all (· = ' ') then
    content.tail.dropLast
  else content

/-- What one turn of the scan finds. -/
inductive Span where
  | code (run : ℕ) (content : Text)
  | strong (content : Text)
  | link (label url : Text)
  | literal (text : Text)
  deriving DecidableEq

/-- One turn, at the character `c`: what is found, and what is left. -/
def turn (c : Char) (rest : Text) : Span × Text :=
  if c = '`' then
    match closingBackticks (backtickRun (c :: rest)) ((c :: rest).drop (backtickRun (c :: rest))) with
    | some (content, next) => (.code (backtickRun (c :: rest)) content, next)
    | none => (.literal ((c :: rest).take (backtickRun (c :: rest))), (c :: rest).drop (backtickRun (c :: rest)))
  else if c = '*' ∧ rest.head? = some '*' then
    match splitOnce ['*', '*'] rest.tail with
    | some (content, next) => (.strong content, next)
    | none => (.literal [c], rest)
  else if c = '[' then
    match link rest with
    | some (label, url, next) => if isSafeUrl url then (.link label url, next) else (.literal [c], rest)
    | none => (.literal [c], rest)
  else (.literal [c], rest)

/-- The characters a turn has read. -/
def Span.source : Span → Text
  | .code run content => List.replicate run '`' ++ content ++ List.replicate run '`'
  | .strong content => ['*', '*'] ++ content ++ ['*', '*']
  | .link label url => '[' :: label ++ ']' :: '(' :: url ++ [')']
  | .literal text => text

/-- What a turn pushes. -/
def Span.html : Span → Text
  | .code _ content => "<code>".toList ++ unpadded content ++ "</code>".toList
  | .strong content => "<strong>".toList ++ content ++ "</strong>".toList
  | .link label url => "<a href=\"".toList ++ url ++ "\">".toList ++ label ++ "</a>".toList
  | .literal text => text

variable {c : Char} {rest chars before after label url content next needle u v s t : Text} {len : ℕ}

/-! ### A turn reads what is before what it leaves -/

theorem splitOnce_eq_some (h : splitOnce needle s = some (before, after)) : s = before ++ needle ++ after := by
  induction s generalizing before after with
  | nil =>
    rw [splitOnce] at h
    split at h
    · rename_i hneedle
      obtain ⟨rfl, rfl⟩ := Prod.mk.inj (Option.some.inj h)
      rw [hneedle]
      rfl
    · cases h
  | cons c s ih =>
    rw [splitOnce] at h
    split at h
    · rename_i hstarts
      obtain ⟨rfl, rfl⟩ := Prod.mk.inj (Option.some.inj h)
      obtain ⟨t, ht⟩ := List.isPrefixOf_iff_prefix.mp hstarts
      rw [← ht, List.drop_left, List.nil_append]
    · obtain ⟨⟨before', after'⟩, hsplit, heq⟩ := Option.map_eq_some_iff.mp h
      obtain ⟨rfl, rfl⟩ := Prod.mk.inj heq
      rw [ih hsplit]
      rfl

theorem take_backtickRun (chars : Text) : chars.take (backtickRun chars) = List.replicate (backtickRun chars) '`' := by
  rw [backtickRun, ← List.prefix_iff_eq_take.mp (List.takeWhile_prefix _)]
  refine List.eq_replicate_iff.mpr ⟨rfl, fun c hc => ?_⟩
  simpa using List.mem_takeWhile_imp hc

theorem closingBackticks_eq_some (h : closingBackticks len chars = some (content, next)) :
    chars = content ++ List.replicate len '`' ++ next := by
  induction hn : chars.length using Nat.strong_induction_on generalizing chars content with
  | _ n ih =>
    cases chars with
    | nil =>
      rw [closingBackticks] at h
      cases h
    | cons c rest =>
      rw [closingBackticks] at h
      split at h
      · rename_i hc
        split at h
        · rename_i hrun
          obtain ⟨rfl, rfl⟩ := Prod.mk.inj (Option.some.inj h)
          rw [List.nil_append, ← hrun, ← take_backtickRun, List.take_append_drop]
        · obtain ⟨⟨content', next'⟩, hclosing, heq⟩ := Option.map_eq_some_iff.mp h
          obtain ⟨rfl, rfl⟩ := Prod.mk.inj heq
          have hpos : 0 < backtickRun (c :: rest) := hc ▸ backtickRun_pos rest
          have hrest := ih _ (by rw [← hn, List.length_drop, List.length_cons]; omega) hclosing rfl
          rw [List.append_assoc, List.append_assoc, ← List.append_assoc content', ← hrest, List.take_append_drop]
      · obtain ⟨⟨content', next'⟩, hclosing, heq⟩ := Option.map_eq_some_iff.mp h
        obtain ⟨rfl, rfl⟩ := Prod.mk.inj heq
        rw [ih _ (by rw [← hn, List.length_cons]; exact Nat.lt_succ_self _) hclosing rfl]
        rfl

theorem link_eq_some (h : link chars = some (label, url, next)) : chars = label ++ ']' :: '(' :: url ++ ')' :: next := by
  rw [link] at h
  split at h
  · cases h
  · rename_i label' after hlabel
    split at h
    · rename_i hopen
      obtain ⟨⟨url', next'⟩, hurl, heq⟩ := Option.map_eq_some_iff.mp h
      simp only [Prod.mk.injEq] at heq
      obtain ⟨rfl, rfl, rfl⟩ := heq
      obtain ⟨rest, rfl⟩ : ∃ rest, after = '(' :: rest := ⟨after.tail, List.eq_cons_of_mem_head? hopen⟩
      have happend := splitOnce_eq_some hurl
      rw [List.tail_cons] at happend
      rw [splitOnce_eq_some hlabel, happend]
      simp
    · cases h

/-- What a turn can find. -/
inductive Turned (c : Char) (rest : Text) : Span × Text → Prop
  | code {content next : Text} (hc : c = '`')
    (h : closingBackticks (backtickRun (c :: rest)) ((c :: rest).drop (backtickRun (c :: rest))) = some (content, next)) :
    Turned c rest (.code (backtickRun (c :: rest)) content, next)
  | ticks (hc : c = '`') :
    Turned c rest (.literal ((c :: rest).take (backtickRun (c :: rest))), (c :: rest).drop (backtickRun (c :: rest)))
  | strong {rest' content next : Text} (hc : c = '*') (hrest : rest = '*' :: rest')
    (h : splitOnce ['*', '*'] rest' = some (content, next)) : Turned c rest (.strong content, next)
  | link {label url next : Text} (hc : c = '[') (h : link rest = some (label, url, next)) (hsafe : isSafeUrl url = true) :
    Turned c rest (.link label url, next)
  | literal : Turned c rest (.literal [c], rest)

theorem turned (c : Char) (rest : Text) : Turned c rest (turn c rest) := by
  rw [turn]
  split
  · rename_i hc
    split
    · rename_i hclosing
      exact .code hc hclosing
    · exact .ticks hc
  · split
    · rename_i hstrong
      obtain ⟨hc, hhead⟩ := hstrong
      split
      · rename_i hsplit
        exact .strong hc (List.eq_cons_of_mem_head? hhead) hsplit
      · exact .literal
    · split
      · rename_i hc
        split
        · rename_i hlink
          split
          · rename_i hsafe
            exact .link hc hlink hsafe
          · exact .literal
        · exact .literal
      · exact .literal

/-- What is read and what is left are what there was. -/
theorem turn_source (c : Char) (rest : Text) : (turn c rest).1.source ++ (turn c rest).2 = c :: rest := by
  have hturned := turned c rest
  generalize turn c rest = found at hturned ⊢
  cases hturned with
  | code hc h =>
    rw [Span.source, List.append_assoc, List.append_assoc, ← List.append_assoc _ _ (Prod.snd _),
      ← closingBackticks_eq_some h, ← take_backtickRun, List.take_append_drop]
  | ticks hc => exact List.take_append_drop _ _
  | strong hc hrest h =>
    rw [Span.source, hc, hrest, splitOnce_eq_some h]
    simp
  | link hc h hsafe =>
    rw [Span.source, hc, link_eq_some h]
    simp
  | literal => rfl

/-- A turn reads something. -/
theorem source_ne_nil (c : Char) (rest : Text) : (turn c rest).1.source ≠ [] := by
  have hturned := turned c rest
  generalize turn c rest = found at hturned ⊢
  cases hturned with
  | code hc h =>
    subst hc
    have hpos := backtickRun_pos rest
    simp only [Span.source, ne_eq, List.append_eq_nil_iff, List.replicate_eq_nil_iff, not_and]
    omega
  | ticks hc =>
    subst hc
    have hpos := backtickRun_pos rest
    simp only [Span.source, ne_eq, List.take_eq_nil_iff, not_or]
    exact ⟨Nat.ne_of_gt hpos, List.cons_ne_nil _ _⟩
  | strong hc hrest h => simp [Span.source]
  | link hc h hsafe => simp [Span.source]
  | literal => exact List.cons_ne_nil _ _

theorem turn_lt (c : Char) (rest : Text) : (turn c rest).2.length < (c :: rest).length := by
  have hlength := congrArg List.length (turn_source c rest)
  have hpos := List.length_pos_iff.mpr (source_ne_nil c rest)
  rw [List.length_append] at hlength
  omega

/-- The turns of the scan. -/
def spans : Text → List Span
  | [] => []
  | c :: rest => (turn c rest).1 :: spans (turn c rest).2
  termination_by chars => chars.length
  decreasing_by exact turn_lt c rest

def inline (text : Text) : Text := (spans (escapeHtml text)).flatMap Span.html

theorem spans_source (chars : Text) : (spans chars).flatMap Span.source = chars := by
  induction chars using spans.induct with
  | case1 =>
    rw [spans]
    rfl
  | case2 c rest ih => rw [spans, List.flatMap_cons, ih, turn_source]

/-! ### Blocks -/

inductive Block where
  | None
  | Paragraph (lines : List Text)
  | List (items : List Text)
  | Table (header : List Text) (rows : List (List Text))

/-- What is pushed out: a heading, or a block once it ends. -/
inductive Piece where
  | heading (level : ℕ) (text : Text)
  | block (b : Block)

def Block.html : Block → Text
  | .None => []
  | .Paragraph lines => "<p>".toList ++ inline ([' '].intercalate lines) ++ "</p>".toList
  | .List items =>
    "<ul>\n".toList ++ items.flatMap (fun i => "<li>".toList ++ inline i ++ "</li>\n".toList) ++ "</ul>".toList
  | .Table header rows =>
    let head := header.flatMap fun c => "<th scope=\"col\">".toList ++ inline c ++ "</th>".toList
    let body := rows.flatMap fun row =>
      let cells := row.flatMap fun c => "<td>".toList ++ inline c ++ "</td>".toList
      "<tr>".toList ++ cells ++ "</tr>\n".toList
    "<div class=\"table-wrap\"><table>\n<thead><tr>".toList ++ head ++ "</tr></thead>\n<tbody>\n".toList ++ body ++
      "</tbody>\n</table></div>".toList

/-- `h1`, `h2` or `h3`. -/
def headingName (level : ℕ) : Text := 'h' :: Nat.toDigits 10 level

def Piece.html : Piece → Text
  | .heading level text =>
    '<' :: headingName level ++ '>' :: inline text ++ '<' :: '/' :: headingName level ++ ['>']
  | .block b => b.html

def heading (trimmed : Text) : Option (ℕ × Text) :=
  [1, 2, 3].findSome? fun level =>
    match stripPrefix (List.replicate level '#' ++ [' ']) trimmed with
    | some rest => if rest.head? = some '#' then none else some (level, trim rest)
    | none => none

/-- `str::trim_matches` of a character. -/
def trimMatches (c : Char) (s : Text) : Text := (s.dropWhile (· = c)).rdropWhile (· = c)

def tableCells (trimmed : Text) : List Text := ((trimMatches '|' trimmed).splitOn '|').map trim

def isSeparatorRow (cells : List Text) : Bool :=
  cells ≠ [] ∧ cells.all fun c => trimMatches ':' c ≠ [] ∧ (trimMatches ':' c).all (· = '-')

/-- `str::trim_end`. -/
def trimEnd (s : Text) : Text := s.rdropWhile isWhitespace

section Lines

variable {β : Type} (emit : Piece → β)

/-- The block that was open, and what is pushed out. -/
structure Page (β : Type) where
  block : Block
  out : List β

def flush (page : Page β) : Page β :=
  match page.block with
  | .None => page
  | b => ⟨.None, page.out ++ [emit (.block b)]⟩

/-- The cells of a line of a table. -/
def addRow (cells header : List Text) (rows : List (List Text)) : Block :=
  if isSeparatorRow cells then .Table header rows
  else if header = [] then .Table cells rows
  else .Table header (rows ++ [cells])

def addLine (page : Page β) (raw : Text) : Page β :=
  let line := trimEnd raw
  let trimmed := trimStart line
  if trimmed = [] then flush emit page
  else
    match heading trimmed with
    | some (level, text) => { flush emit page with out := (flush emit page).out ++ [emit (.heading level text)] }
    | none =>
      match stripPrefix ['-', ' '] trimmed with
      | some item =>
        match page.block with
        | .List items => { page with block := .List (items ++ [trim item]) }
        | _ => { flush emit page with block := .List [trim item] }
      | none =>
        if trimmed.head? = some '|' then
          match page.block with
          | .Table header rows => { page with block := addRow (tableCells trimmed) header rows }
          | _ => { flush emit page with block := addRow (tableCells trimmed) [] [] }
        else
          match page.block with
          | .List items =>
            -- an indented line continues the last item
            match line.head?.any isWhitespace, items.getLast? with
            | true, some last => { page with block := .List (items.dropLast ++ [last ++ ' ' :: trimmed]) }
            | _, _ => { flush emit page with block := .Paragraph [trimmed] }
          | .Paragraph lines => { page with block := .Paragraph (lines ++ [trimmed]) }
          | _ => { flush emit page with block := .Paragraph [trimmed] }

def pushed (md : Text) : List β := (flush emit ((linesFrom [] md).foldl (addLine emit) ⟨.None, []⟩)).out

end Lines

def renderMarkdown (md : Text) : Text := ['\n'].intercalate (pushed Piece.html md)

end Home.Rgpd
