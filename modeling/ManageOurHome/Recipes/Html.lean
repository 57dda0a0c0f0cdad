import ManageOurHome.Recipes.PlainText
import Mathlib.Logic.Function.Basic

/-! @src apps/api/src/recipes/html.rs | layer:model | family:text of a page

    A page cut into tokens, with the extent of every element, its attributes and its text. An end tag
    closes the innermost open element of its name and every element opened inside it; a `<li>` closes the
    open `<li>` of the same list, and a block a `<p>` it opens right inside of.

        <ul><li>un<li>deux</ul>
        0   1   2 3   4    5        ends: 0 ↦ 5, 1 ↦ 3, 3 ↦ 5 -/

namespace Home.Recipes.Html

/-- One piece of a page, in page order. -/
inductive Token where
  /-- `<name attributes>`, the name lowercased, the attributes as written. -/
  | start (name attributes : Text)
  /-- `</name>`, the name lowercased. -/
  | endTag (name : Text)
  /-- Text between tags, entities not decoded. -/
  | text (t : Text)
  deriving DecidableEq

/-! ### Elements -/

/-- Elements without content or end tag. -/
def VOID : List Text :=
  ["area", "base", "br", "col", "embed", "hr", "img", "input", "link", "meta", "param", "source", "track",
    "wbr"].map String.toList

/-- Elements that end a line of text. -/
def BLOCKS : List Text :=
  ["address", "article", "aside", "blockquote", "br", "dd", "div", "dl", "dt", "figure", "footer", "h1", "h2",
    "h3", "h4", "h5", "h6", "header", "li", "ol", "p", "ul"].map String.toList

/-- Elements that close a `p` when they open right inside of it. -/
def CLOSES_P : List Text :=
  ["address", "article", "aside", "blockquote", "div", "dl", "footer", "h1", "h2", "h3", "h4", "h5", "h6",
    "ol", "p", "ul"].map String.toList

def li : Text := ['l', 'i']
def ul : Text := ['u', 'l']
def ol : Text := ['o', 'l']
def p : Text := ['p']
def script : Text := ['s', 'c', 'r', 'i', 'p', 't']
def style : Text := ['s', 't', 'y', 'l', 'e']

def isBlock (name : Text) : Bool := name ∈ BLOCKS

/-! ### Tokens -/

/-- `u8::is_ascii_whitespace`. -/
def isAsciiWhitespace (c : Char) : Bool :=
  c = ' ' || c = '\t' || c = '\n' || c = '\x0c' || c = '\r'

/-- What the name of a tag goes on with. -/
def isNameChar (c : Char) : Bool := c.isAlphanum || c = '-'

/-- The attributes of a tag, up to the `>` that ends it, and what is after it: a `>` inside a quoted value
does not end the tag. -/
def tagEnd (quote : Option Char) (afterEquals : Bool) : Text → Option (Text × Text)
  | [] => none
  | b :: rest =>
    let keep := fun (o : Option (Text × Text)) => o.map fun (attributes, after) => (b :: attributes, after)
    match quote with
    | some q => keep (if b = q then tagEnd none afterEquals rest else tagEnd (some q) false rest)
    | none =>
      if b = '>' then some ([], rest)
      else if (b = '"' ∨ b = '\'') ∧ afterEquals then keep (tagEnd (some b) false rest)
      else if b = '=' then keep (tagEnd none true rest)
      else if isAsciiWhitespace b then keep (tagEnd none afterEquals rest)
      else keep (tagEnd none false rest)

theorem tagEnd_length {quote : Option Char} {afterEquals : Bool} {rest attributes after : Text}
    (h : tagEnd quote afterEquals rest = some (attributes, after)) : after.length < rest.length := by
  induction rest generalizing quote afterEquals attributes with
  | nil => cases h
  | cons b rest ih =>
    have hkeep : ∀ {quote afterEquals},
        (tagEnd quote afterEquals rest).map (fun (a, t) => (b :: a, t)) = some (attributes, after) →
          after.length < (b :: rest).length := by
      intro quote afterEquals hmap
      obtain ⟨⟨a, t⟩, hrest, heq⟩ := Option.map_eq_some_iff.mp hmap
      obtain ⟨-, rfl⟩ := Prod.mk.inj heq
      exact (ih hrest).trans (Nat.lt_succ_self _)
    rcases quote with _ | q
    · rw [tagEnd] at h
      split at h
      · obtain ⟨-, rfl⟩ := Prod.mk.inj (Option.some.inj h)
        exact Nat.lt_succ_self _
      · split at h
        · exact hkeep h
        · split at h
          · exact hkeep h
          · split at h
            · exact hkeep h
            · exact hkeep h
    · rw [tagEnd] at h
      split at h
      · exact hkeep h
      · exact hkeep h

def commentStart : Text := ['<', '!', '-', '-']
def commentEnd : Text := ['-', '-', '>']

/-- What follows the comment or the declaration that `markup` starts with. -/
def afterMarkup (markup : Text) : Option Text :=
  if commentStart <+: markup then (cutAt commentEnd (markup.drop 4)).map Prod.snd
  else (cutAt ['>'] markup).map Prod.snd

/-- What follows the end tag of a `script` or a `style`, its content unread. -/
def afterRaw (name rest : Text) : Option Text :=
  match cutAt ('<' :: '/' :: name) (asciiLowercase rest) with
  | some (before, _) => (cutAt ['>'] (rest.drop before.length)).map Prod.snd
  | none => none

theorem afterMarkup_length {markup after : Text} (h : afterMarkup markup = some after) :
    after.length ≤ markup.length - 1 := by
  rw [afterMarkup] at h
  split at h
  · obtain ⟨⟨before, left⟩, hcut, rfl⟩ := Option.map_eq_some_iff.mp h
    have hlen := cutAt_length hcut
    rw [List.length_drop] at hlen
    dsimp only
    omega
  · obtain ⟨⟨before, left⟩, hcut, rfl⟩ := Option.map_eq_some_iff.mp h
    have hlen := cutAt_length hcut
    rw [List.length_singleton] at hlen
    dsimp only
    omega

theorem afterRaw_length {name rest after : Text} (h : afterRaw name rest = some after) :
    after.length ≤ rest.length := by
  rw [afterRaw] at h
  split at h
  · obtain ⟨⟨before, left⟩, hcut, rfl⟩ := Option.map_eq_some_iff.mp h
    have hlen := cutAt_length hcut
    rw [List.length_drop] at hlen
    dsimp only
    omega
  · cases h

/-- A text token, unless the text is empty. -/
def pushText (pending : Text) : List Token := if pending = [] then [] else [.text pending]

/-- A tag, from what follows its `<`: its name lowercased, its attributes, and what is after its `>`. -/
def readTag (closing : Bool) (rest : Text) : Option (Text × Text × Text) :=
  let named := if closing then rest.tail else rest
  (tagEnd none false (named.dropWhile isNameChar)).map fun (attributes, after) =>
    (asciiLowercase (named.takeWhile isNameChar), attributes, after)

/-- The token of a tag, and where the scan goes on, if it does. -/
def pushTag (closing : Bool) (name attributes after : Text) : List Token × Option Text :=
  if closing then (if name = [] then [] else [.endTag name], some after)
  else if name = script ∨ name = style then ([], afterRaw name after)
  else ([.start name (attributes.rdropWhile (· = '/'))], some after)

/-- The tokens up to the end of what a `<` opens, `rest` being what follows it, and where the scan goes on.
`none` when the `<` opens nothing. -/
def scanMarkup (pending rest : Text) : Option (List Token × Option Text) :=
  if rest.head? = some '!' then some (pushText pending, afterMarkup ('<' :: rest))
  else if rest.head? = some '/' ∨ rest.head?.any Char.isAlpha then
    let closing : Bool := rest.head? = some '/'
    match readTag closing rest with
    | none => some ([.text (pending ++ '<' :: rest)], none)
    | some (name, attributes, after) =>
      let (tokens, left) := pushTag closing name attributes after
      some (pushText pending ++ tokens, left)
  else none

theorem readTag_length {closing : Bool} {rest name attributes after : Text}
    (h : readTag closing rest = some (name, attributes, after)) : after.length ≤ rest.length := by
  obtain ⟨⟨a, t⟩, htag, heq⟩ := Option.map_eq_some_iff.mp h
  obtain ⟨-, heq⟩ := Prod.mk.inj heq
  obtain ⟨-, rfl⟩ := Prod.mk.inj heq
  have hdrop := (List.dropWhile_sublist isNameChar (l := if closing then rest.tail else rest)).length_le
  have htail : (if closing then rest.tail else rest).length ≤ rest.length := by
    split
    · rw [List.length_tail]
      exact Nat.sub_le _ _
    · exact le_rfl
  exact (tagEnd_length htag).le.trans (hdrop.trans htail)

theorem pushTag_length {closing : Bool} {name attributes after left : Text} {tokens : List Token}
    (h : pushTag closing name attributes after = (tokens, some left)) : left.length ≤ after.length := by
  rw [pushTag] at h
  split at h
  · obtain ⟨-, heq⟩ := Prod.mk.inj h
    exact (Option.some.inj heq ▸ le_rfl)
  · split at h
    · exact afterRaw_length (Prod.mk.inj h).2
    · obtain ⟨-, heq⟩ := Prod.mk.inj h
      exact (Option.some.inj heq ▸ le_rfl)

theorem scanMarkup_length {pending rest left : Text} {tokens : List Token}
    (h : scanMarkup pending rest = some (tokens, some left)) : left.length ≤ rest.length := by
  rw [scanMarkup] at h
  split at h
  · exact afterMarkup_length (Prod.mk.inj (Option.some.inj h)).2
  · split at h
    · dsimp only at h
      split at h
      · cases h
      · rename_i name attributes after hread
        obtain ⟨-, hleft⟩ := Prod.mk.inj (Option.some.inj h)
        exact (pushTag_length (Prod.ext rfl hleft)).trans (readTag_length hread)
    · cases h

/-- The tokens of `pending`, text already scanned, and of the rest of the page. -/
def tokenizeFrom (pending : Text) : Text → List Token
  | [] => pushText pending
  | c :: rest =>
    if c ≠ '<' then tokenizeFrom (pending ++ [c]) rest
    else match _hscan : scanMarkup pending rest with
      | none => tokenizeFrom (pending ++ [c]) rest
      | some (tokens, none) => tokens
      | some (tokens, some left) => tokens ++ tokenizeFrom [] left
  termination_by s => s.length
  decreasing_by
    · exact Nat.lt_succ_self _
    · exact Nat.lt_succ_self _
    · exact Nat.lt_succ_of_le (scanMarkup_length _hscan)

def tokenize (html : Text) : List Token := tokenizeFrom [] html

/-! ### Extents -/

/-- The matching under way: the open elements, innermost first, how deep the open elements of each name are,
innermost first, and where the elements closed so far end. -/
structure Matching where
  stack : List (ℕ × Text)
  opened : Text → List ℕ
  ends : ℕ → ℕ

/-- Closes the innermost elements, at `pos`, until `depth` are open. -/
def closeDownTo (depth pos : ℕ) : List (ℕ × Text) → (Text → List ℕ) → (ℕ → ℕ) → Matching
  | [], opened, ends => ⟨[], opened, ends⟩
  | (start, name) :: below, opened, ends =>
    if depth < below.length + 1 then
      closeDownTo depth pos below (Function.update opened name (opened name).tail)
        (Function.update ends start pos)
    else ⟨(start, name) :: below, opened, ends⟩

def Matching.closeDownTo (m : Matching) (depth pos : ℕ) : Matching :=
  Html.closeDownTo depth pos m.stack m.opened m.ends

/-- How deep the innermost open element of a name is. -/
def Matching.innermost (m : Matching) (name : Text) : Option ℕ := (m.opened name).head?

/-- A `<li>` closes the open `<li>` of the same list. -/
def Matching.closeItem (m : Matching) (pos : ℕ) (name : Text) : Matching :=
  if name = li then
    let list := max (m.innermost ul) (m.innermost ol)
    match (m.innermost li).filter fun item => list.all (· < item) with
    | some item => m.closeDownTo item pos
    | none => m
  else m

/-- A block closes a `<p>` it opens right inside of. -/
def Matching.closeParagraph (m : Matching) (pos : ℕ) (name : Text) : Matching :=
  if name ∈ CLOSES_P ∧ m.stack.head?.any (·.2 = p) then m.closeDownTo (m.stack.length - 1) pos else m

def Matching.push (m : Matching) (pos : ℕ) (name : Text) : Matching where
  stack := (pos, name) :: m.stack
  opened := Function.update m.opened name (m.stack.length :: m.opened name)
  ends := m.ends

def Matching.step (m : Matching) (pos : ℕ) : Token → Matching
  | .start name _ =>
    if name ∈ VOID then { m with ends := Function.update m.ends pos pos }
    else ((m.closeItem pos name).closeParagraph pos name).push pos name
  | .endTag name =>
    match m.innermost name with
    | some depth => m.closeDownTo depth pos
    | none => m
  | .text _ => m

/-- The matching of `tokens`, the first of which is the one at `pos`. -/
def Matching.run (m : Matching) (pos : ℕ) : List Token → Matching
  | [] => m
  | token :: tokens => (m.step pos token).run (pos + 1) tokens

def Matching.init : Matching := ⟨[], fun _ => [], fun _ => 0⟩

def matchEnds (tokens : List Token) : ℕ → ℕ :=
  ((Matching.init.run 0 tokens).closeDownTo 0 tokens.length).ends

/-! ### The page -/

/-- A page cut into tokens, with the extent of every element. -/
structure Document where
  tokens : List Token
  ends : ℕ → ℕ

def Document.parse (html : Text) : Document where
  tokens := tokenize html
  ends := matchEnds (tokenize html)

/-- The index of the token that ends the element started at `start`. -/
def Document.endOf (d : Document) (start : ℕ) : ℕ := d.ends start

/-- The tokens inside the element started at `start`: from the first, up to the second. -/
def Document.inside (d : Document) (start : ℕ) : ℕ × ℕ := (min (start + 1) (d.endOf start), d.endOf start)

/-- What a token adds to the text of its element. -/
def rawText : Token → Text
  | .text t => t
  | .start name _ | .endTag name => if isBlock name then [' '] else []

def Document.textIn (d : Document) (range : ℕ × ℕ) : Text :=
  plainText (((d.tokens.take range.2).drop range.1).flatMap rawText)

/-- The element's text, on one line. -/
def Document.text (d : Document) (start : ℕ) : Text := d.textIn (d.inside start)

/-! ### Attributes -/

/-- The value of an attribute, from what follows its `=`, and what is left. -/
def readValue (after : Text) : Text × Text :=
  match after with
  | quote :: inner =>
    if quote = '"' ∨ quote = '\'' then (inner.takeWhile (· ≠ quote), (inner.dropWhile (· ≠ quote)).tail)
    else (after.takeWhile (!isWhitespace ·), after.dropWhile (!isWhitespace ·))
  | [] => ([], [])

/-- What the name of an attribute goes on with. -/
def inAttributeName (c : Char) : Bool := !(isWhitespace c || c = '=' || c = '/')

/-- An attribute, its name and its value, and what is left. -/
def readAttribute (rest : Text) : Text × Text × Text :=
  let found := rest.takeWhile inAttributeName
  match (rest.dropWhile inAttributeName).dropWhile isWhitespace with
  | '=' :: after => (found, readValue (after.dropWhile isWhitespace))
  | left => (found, [], left)

/-- What stands between attributes. -/
def betweenAttributes (c : Char) : Bool := isWhitespace c || c = '/'

theorem readValue_length (after : Text) : (readValue after).2.length ≤ after.length := by
  unfold readValue
  split
  · rename_i quote inner
    split
    · have hdrop := (List.dropWhile_sublist (· ≠ quote) (l := inner)).length_le
      rw [List.length_tail, List.length_cons]
      omega
    · exact (List.dropWhile_sublist _).length_le
  · exact le_rfl

theorem inAttributeName_of_between {c : Char} (h : betweenAttributes c = false) (heq : c ≠ '=') :
    inAttributeName c = true := by
  simp only [betweenAttributes, Bool.or_eq_false_iff, decide_eq_false_iff_not] at h
  simp [inAttributeName, h.1, h.2, heq]

theorem readAttribute_length {c : Char} {rest : Text} (h : betweenAttributes c = false) :
    (readAttribute (c :: rest)).2.2.length < (c :: rest).length := by
  have hnamed := (List.dropWhile_sublist inAttributeName (l := c :: rest)).length_le
  have hspace := (List.dropWhile_sublist isWhitespace (l := (c :: rest).dropWhile inAttributeName)).length_le
  rw [readAttribute]
  split
  · rename_i after hequals
    have hvalue := (readValue_length (after.dropWhile isWhitespace)).trans (List.dropWhile_sublist _).length_le
    rw [hequals, List.length_cons] at hspace
    dsimp only
    omega
  · rename_i left hequals
    have hname : inAttributeName c = true := by
      refine inAttributeName_of_between h fun hc => ?_
      subst hc
      exact hequals rest (by simp [inAttributeName, isWhitespace])
    rw [List.dropWhile_cons_of_pos hname] at hspace ⊢
    have hrest := (List.dropWhile_sublist inAttributeName (l := rest)).length_le
    rw [List.length_cons]
    dsimp only
    omega

/-- The value of attribute `name` in a tag's attributes; empty for one without a value. Names in any case. -/
def attributeOf (attributes name : Text) : Option Text :=
  match _hrest : attributes.dropWhile betweenAttributes with
  | [] => none
  | c :: rest =>
    let read := readAttribute (c :: rest)
    if asciiLowercase read.1 = asciiLowercase name then some (plainText read.2.1) else attributeOf read.2.2 name
  termination_by attributes.length
  decreasing_by
    have hdrop := (List.dropWhile_sublist betweenAttributes (l := attributes)).length_le
    have hhead := List.head?_dropWhile_not betweenAttributes attributes
    rw [_hrest] at hhead
    have hbetween : betweenAttributes c = false := by simpa using hhead
    rw [_hrest] at hdrop
    exact (readAttribute_length hbetween).trans_le hdrop

end Home.Recipes.Html
