import ManageOurHome.Recipes.Html

/-! @src apps/api/src/recipes/html.rs | layer:spec | family:text of a page

    A page as it is written: a forest of elements, and the tokens it is read back as.

        write     un <em>deux</em><!-- trois -->
        tokens    text · start em · text · end em

    Every node carries the text before it, so that no two texts are side by side. -/

namespace Home.Recipes.Html

/-! ### Trees -/

/-- An attribute as written: `before name beforeEquals=afterEquals"value"`, or with the other quote. What
follows the `=` is whitespace of HTML; elsewhere any whitespace will do. -/
structure Attribute where
  before : Text
  name : Text
  beforeEquals : Text
  afterEquals : Text
  quote : Char
  value : Glyphs
  before_ne : before ≠ []
  before_space : ∀ c ∈ before, isWhitespace c
  name_ne : name ≠ []
  name_char : ∀ c ∈ name, isWhitespace c = false ∧ c ≠ '=' ∧ c ≠ '/' ∧ c ≠ '>'
  beforeEquals_space : ∀ c ∈ beforeEquals, isWhitespace c
  afterEquals_space : ∀ c ∈ afterEquals, isAsciiWhitespace c
  quote_char : quote = '"' ∨ quote = '\''
  value_char : quote ∉ value.write

def Attribute.write (a : Attribute) : Text :=
  a.before ++ (a.name ++ (a.beforeEquals ++ '=' :: (a.afterEquals ++ a.quote :: (a.value.write ++ [a.quote]))))

/-- The name, the attributes and the whitespace of a start tag. -/
structure Tag where
  name : Text
  attributes : List Attribute
  space : Text
  name_head : name.head?.any Char.isAlpha
  name_char : ∀ c ∈ name, isNameChar c
  name_html : asciiLowercase name ≠ script ∧ asciiLowercase name ≠ style
  space_space : ∀ c ∈ space, isWhitespace c

namespace Tag

/-- The element's name. -/
def element (tag : Tag) : Text := asciiLowercase tag.name

def void (tag : Tag) : Bool := tag.element ∈ VOID

def writeAttributes (tag : Tag) : Text := tag.attributes.flatMap Attribute.write ++ tag.space

def write (tag : Tag) : Text := '<' :: (tag.name ++ (tag.writeAttributes ++ ['>']))

def writeEnd (tag : Tag) : Text := '<' :: '/' :: (tag.name ++ ['>'])

/-- The value of the first attribute named `name`, in any case. -/
def value (tag : Tag) (name : Text) : Option Text :=
  (tag.attributes.find? fun a => asciiLowercase a.name = asciiLowercase name).map (·.value.chars)

/-- A block starts and ends with a space in the text it is in. -/
def gap (tag : Tag) : Text := if isBlock tag.element then [' '] else []

end Tag

/-- Nodes side by side, each after a text, and a last text. -/
inductive Forest where
  | done (text : Glyphs)
  | comment (text : Glyphs) (body : Text) (rest : Forest)
  | element (text : Glyphs) (tag : Tag) (children rest : Forest)

/-- An `li` is open, and no `ul` or `ol` inside of it. -/
def inItem (ancestors : List Text) : Prop := li ∈ ancestors.takeWhile fun name => name ≠ ul ∧ name ≠ ol

namespace Forest

def write : Forest → Text
  | done text => text.write
  | comment text body rest => text.write ++ (commentStart ++ (body ++ (commentEnd ++ rest.write)))
  | element text tag children rest =>
    text.write ++ (tag.write ++ ((if tag.void then [] else children.write ++ tag.writeEnd) ++ rest.write))

/-- The tokens of a forest, in order. -/
def tokens : Forest → List Token
  | done text => pushText text.write
  | comment text _ rest => pushText text.write ++ rest.tokens
  | element text tag children rest =>
    pushText text.write ++ (.start tag.element tag.writeAttributes ::
      ((if tag.void then [] else children.tokens ++ [.endTag tag.element]) ++ rest.tokens))

/-- The text of a forest, each character as it is. -/
def content : Forest → Text
  | done text => text.chars
  | comment text _ rest => text.chars ++ rest.content
  | element text tag children rest =>
    text.chars ++ (tag.gap ++ ((if tag.void then [] else children.content ++ tag.gap) ++ rest.content))

/-- A forest inside `ancestors`, innermost first, that HTML writes with every end tag: nothing in a void
element, no `li` in an `li` but through a list, no block right inside a `p`, no `-->` in a comment. -/
def WellFormed (ancestors : List Text) : Forest → Prop
  | done _ => True
  | comment _ body rest => ¬ commentEnd <:+: body ∧ rest.WellFormed ancestors
  | element _ tag children rest =>
    (tag.void → children = done []) ∧
    (tag.element = li → ¬ inItem ancestors) ∧
    (tag.element ∈ CLOSES_P → ancestors.head? ≠ some p) ∧
    children.WellFormed (tag.element :: ancestors) ∧ rest.WellFormed ancestors

end Forest

/-- An element of a page: the index of its start tag, and what it is. -/
structure Occurrence where
  start : ℕ
  tag : Tag
  children : Forest

namespace Occurrence

/-- The tokens of the element. -/
def tokens (e : Occurrence) : List Token :=
  .start e.tag.element e.tag.writeAttributes ::
    if e.tag.void then [] else e.children.tokens ++ [.endTag e.tag.element]

/-- The index of its end tag; of its start tag when it is void. -/
def finish (e : Occurrence) : ℕ := if e.tag.void then e.start else e.start + 1 + e.children.tokens.length

end Occurrence

/-- The elements of a forest whose first token is the one at `pos`, at any depth, in page order. -/
def Forest.occurrences (pos : ℕ) : Forest → List Occurrence
  | done _ => []
  | comment text _ rest => rest.occurrences (pos + (pushText text.write).length)
  | element text tag children rest =>
    let e : Occurrence := ⟨pos + (pushText text.write).length, tag, children⟩
    e :: (children.occurrences (e.start + 1) ++ rest.occurrences (e.start + e.tokens.length))

end Home.Recipes.Html
