import ManageOurHome.Text
import ManageOurHome.Lib.Net

/-! @src apps/api/src/recipes/jsonld.rs | layer:model | family:text of a page

    `plain_text`: the tags of a text dropped, its entities decoded, its whitespace collapsed. A `<` that
    opens no tag, and a `&` that opens no known entity, stay as they are.

        4 &lt; 5 &amp;amp; <b>6</b>   ──▶   4 < 5 &amp; 6 -/

namespace Home.Recipes

open Net

/-! ### Cutting a text -/

/-- What is before the first occurrence of `needle` (`str::find`), and what is after it. -/
def cutAt (needle : Text) : Text → Option (Text × Text)
  | [] => if needle = [] then some ([], []) else none
  | c :: rest =>
    if needle <+: c :: rest then some ([], (c :: rest).drop needle.length)
    else (cutAt needle rest).map fun (before, after) => (c :: before, after)

theorem cutAt_length {needle s before after : Text} (h : cutAt needle s = some (before, after)) :
    before.length + needle.length + after.length = s.length := by
  induction s generalizing before with
  | nil =>
    rw [cutAt] at h
    split at h
    · rename_i hnil
      obtain ⟨rfl, rfl⟩ := Prod.mk.inj (Option.some.inj h)
      rw [hnil]
      rfl
    · cases h
  | cons c rest ih =>
    rw [cutAt] at h
    split at h
    · rename_i hprefix
      obtain ⟨rfl, rfl⟩ := Prod.mk.inj (Option.some.inj h)
      have hle := hprefix.length_le
      rw [List.length_nil, List.length_drop]
      omega
    · obtain ⟨⟨found, left⟩, hcut, heq⟩ := Option.map_eq_some_iff.mp h
      obtain ⟨rfl, rfl⟩ := Prod.mk.inj heq
      have := ih hcut
      simp only [List.length_cons]
      omega

theorem cutAt_eq_append {needle s before after : Text} (h : cutAt needle s = some (before, after)) :
    s = before ++ (needle ++ after) := by
  induction s generalizing before with
  | nil =>
    rw [cutAt] at h
    split at h
    · rename_i hnil
      obtain ⟨rfl, rfl⟩ := Prod.mk.inj (Option.some.inj h)
      rw [hnil]
      rfl
    · cases h
  | cons c s ih =>
    rw [cutAt] at h
    split at h
    · rename_i hstarts
      obtain ⟨rfl, rfl⟩ := Prod.mk.inj (Option.some.inj h)
      exact (List.prefix_iff_eq_append.mp hstarts).symm
    · obtain ⟨⟨found, left⟩, hcut, heq⟩ := Option.map_eq_some_iff.mp h
      obtain ⟨rfl, rfl⟩ := Prod.mk.inj heq
      rw [ih hcut]
      rfl

/-- `str::lines`, the text of the line under way being `line`. -/
def linesFrom (line : Text) : Text → List Text
  | [] => if line = [] then [] else [line]
  | c :: rest =>
    if c = '\n' then (if line.getLast? = some '\r' then line.dropLast else line) :: linesFrom [] rest
    else linesFrom (line ++ [c]) rest

/-- `str::split_whitespace`. -/
def splitWhitespace (s : Text) : List Text := (s.splitOnP isWhitespace).filter (· ≠ [])

/-- Runs of whitespace made one space, none at either end. -/
def collapse (s : Text) : Text := [' '].intercalate (splitWhitespace s)

/-! ### Tags -/

def BLOCK_TAGS : List Text :=
  [['b', 'r'], ['p'], ['l', 'i'], ['d', 'i', 'v'], ['o', 'l'], ['u', 'l']]

/-- What follows a `<` opens a tag. -/
def opensTag (after : Text) : Bool := after.head?.any fun c => c.isAlpha || c = '/' || c = '!'

/-- The name of a tag, from what is between its `<` and its `>`. -/
def tagName (tag : Text) : Text :=
  asciiLowercase ((tag.dropWhile (· = '/')).takeWhile Char.isAlphanum)

def stripTags (blocksAsLines : Bool) : Text → Text
  | [] => []
  | c :: after =>
    if c ≠ '<' then c :: stripTags blocksAsLines after
    else if !opensTag after then '<' :: stripTags blocksAsLines after
    else match _hcut : cutAt ['>'] after with
      | some (tag, rest) =>
        if blocksAsLines ∧ tagName tag ∈ BLOCK_TAGS then '\n' :: stripTags blocksAsLines rest
        else stripTags blocksAsLines rest
      | none => '<' :: after
  termination_by s => s.length
  decreasing_by
    · simp
    · simp
    all_goals
      have hlen := cutAt_length _hcut
      simp only [List.length_cons]
      omega

theorem stripTags_eq_self {s : Text} (blocksAsLines : Bool) (h : '<' ∉ s) : stripTags blocksAsLines s = s := by
  induction s with
  | nil => rw [stripTags]
  | cons c rest ih =>
    rw [List.mem_cons, not_or] at h
    rw [stripTags, if_pos (Ne.symm h.1), ih h.2]

/-! ### Entities -/

def ENTITY_MAX_LEN : ℕ := 12

def NAMED_ENTITIES : List (String × Char) :=
  [("amp", '&'), ("lt", '<'), ("gt", '>'), ("quot", '"'), ("apos", '\''), ("nbsp", '\u00a0'), ("agrave", 'à'),
    ("acirc", 'â'), ("ccedil", 'ç'), ("eacute", 'é'), ("egrave", 'è'), ("ecirc", 'ê'), ("euml", 'ë'),
    ("icirc", 'î'), ("iuml", 'ï'), ("ocirc", 'ô'), ("oelig", 'œ'), ("ugrave", 'ù'), ("ucirc", 'û'),
    ("uuml", 'ü'), ("Agrave", 'À'), ("Ccedil", 'Ç'), ("Eacute", 'É'), ("Egrave", 'È'), ("Ecirc", 'Ê'),
    ("OElig", 'Œ'), ("deg", '°'), ("laquo", '«'), ("raquo", '»'), ("lsquo", '‘'), ("rsquo", '’'),
    ("ldquo", '“'), ("rdquo", '”'), ("hellip", '…'), ("ndash", '–'), ("mdash", '—'), ("frac12", '½'),
    ("frac14", '¼'), ("frac34", '¾')]

/-- `str::parse::<u32>` and `u32::from_str_radix`: a `+` may stand before the digits. -/
def parseU32 (radix : ℕ) (s : Text) : Option ℕ :=
  let digits := if s.head? = some '+' then s.tail else s
  if digits ≠ [] ∧ digits.all (fun c => (toDigit radix c).isSome) ∧ value radix digits < 2 ^ 32
  then some (value radix digits) else none

/-- `char::from_u32`. -/
def charFromU32 (n : ℕ) : Option Char := if n.isValidChar then some (Char.ofNat n) else none

def entity (name : Text) : Option Char :=
  match name with
  | '#' :: number =>
    match number with
    | 'x' :: hex | 'X' :: hex => (parseU32 16 hex).bind charFromU32
    | _ => (parseU32 10 number).bind charFromU32
  | _ => (NAMED_ENTITIES.find? fun p => p.1.toList = name).map Prod.snd

/-- The entity whose `&` stands before `after`, and what follows its `;`: the `;` is looked for in a window
of bytes. -/
def decoded (after : Text) : Option (Char × Text) :=
  match cutAt [';'] after with
  | some (name, rest) =>
    if (name.map Char.utf8Size).sum ≤ ENTITY_MAX_LEN then (entity name).map (·, rest) else none
  | none => none

theorem decoded_length {after rest : Text} {c : Char} (h : decoded after = some (c, rest)) :
    rest.length < after.length := by
  rw [decoded] at h
  split at h
  · rename_i name left hcut
    split at h
    · obtain ⟨c', _, heq⟩ := Option.map_eq_some_iff.mp h
      obtain ⟨rfl, rfl⟩ := Prod.mk.inj heq
      have hlen := cutAt_length hcut
      rw [List.length_singleton] at hlen
      omega
    · cases h
  · cases h

def decodeEntities : Text → Text
  | [] => []
  | c :: after =>
    if c ≠ '&' then c :: decodeEntities after
    else match _hread : decoded after with
      | some (d, rest) => d :: decodeEntities rest
      | none => '&' :: decodeEntities after
  termination_by s => s.length
  decreasing_by
    · simp
    · exact (decoded_length _hread).trans (Nat.lt_succ_self _)
    · simp

def plainText (text : Text) : Text := collapse (decodeEntities (stripTags false text))

/-! ### What a text is written with -/

/-- XML's five entities, by name. -/
def XML_ENTITIES : List (Text × Char) :=
  [(['a', 'm', 'p'], '&'), (['l', 't'], '<'), (['g', 't'], '>'), (['q', 'u', 'o', 't'], '"'),
    (['a', 'p', 'o', 's'], '\'')]

/-- `name` written between `&` and `;` stands for `c`: one of XML's five names, or the number of `c`, in
decimal or in hexadecimal, with zeros before it as long as it keeps to the longest entity looked for. -/
inductive Stands : Text → Char → Prop
  | named {name : Text} {c : Char} (h : (name, c) ∈ XML_ENTITIES) : Stands name c
  | decimal {digits : Text} {c : Char} (hne : digits ≠ []) (hdigits : ∀ d ∈ digits, (toDigit 10 d).isSome)
      (hvalue : value 10 digits = c.toNat) (hlen : digits.length ≤ 11) : Stands ('#' :: digits) c
  | hexadecimal {x : Char} {digits : Text} {c : Char} (hx : x = 'x' ∨ x = 'X') (hne : digits ≠ [])
      (hdigits : ∀ d ∈ digits, (toDigit 16 d).isSome) (hvalue : value 16 digits = c.toNat)
      (hlen : digits.length ≤ 10) : Stands ('#' :: x :: digits) c

/-- A character of a text: as it is, or as an entity. -/
inductive Glyph where
  | plain (c : Char) (h : c ≠ '&' ∧ c ≠ '<')
  | reference (name : Text) (c : Char) (h : Stands name c)

/-- A text and the way it is written. -/
abbrev Glyphs := List Glyph

def Glyph.write : Glyph → Text
  | .plain c _ => [c]
  | .reference name _ _ => '&' :: (name ++ [';'])

def Glyph.char : Glyph → Char
  | .plain c _ => c
  | .reference _ c _ => c

def Glyphs.write (glyphs : Glyphs) : Text := glyphs.flatMap Glyph.write

def Glyphs.chars (glyphs : Glyphs) : Text := glyphs.map Glyph.char

/-! ### Reading it back -/

theorem cutAt_singleton {c : Char} {before : Text} (after : Text) (h : c ∉ before) :
    cutAt [c] (before ++ c :: after) = some (before, after) := by
  induction before with
  | nil => simp [cutAt]
  | cons d before ih =>
    rw [List.mem_cons, not_or] at h
    rw [List.cons_append, cutAt, if_neg, ih h.2]
    · rfl
    · rw [List.cons_prefix_cons]
      exact fun hc => h.1 hc.1

/-- What an entity's name is made of. -/
def Plain (c : Char) : Prop := c.toNat < 128 ∧ c ≠ ';' ∧ c ≠ '<'

instance : DecidablePred Plain := fun _ => inferInstanceAs (Decidable (_ ∧ _))

theorem Plain.utf8Size {c : Char} (h : Plain c) : c.utf8Size = 1 := by
  rw [Char.utf8Size, if_pos]
  exact UInt32.le_iff_toNat_le.mpr (Nat.le_of_lt_succ h.1)

theorem plain_of_toDigit {radix : ℕ} {c : Char} (h : (toDigit radix c).isSome) : Plain c := by
  obtain ⟨n, hn⟩ := Option.isSome_iff_exists.mp h
  rw [toDigit, Option.filter_eq_some_iff, digitValue] at hn
  have hn := hn.1
  have hsemicolon : c ≠ ';' := fun hc => by simp [hc] at hn
  have hless : c ≠ '<' := fun hc => by simp [hc] at hn
  refine ⟨?_, hsemicolon, hless⟩
  split at hn
  · rename_i hc
    have hhi : c.toNat ≤ 57 := hc.2
    omega
  · split at hn
    · rename_i hc
      have hhi : c.toNat ≤ 122 := hc.2
      omega
    · split at hn
      · rename_i hc
        have hhi : c.toNat ≤ 90 := hc.2
        omega
      · cases hn

theorem Stands.plain {name : Text} {c : Char} (h : Stands name c) : ∀ d ∈ name, Plain d := by
  cases h with
  | named h =>
    have hall : ∀ p ∈ XML_ENTITIES, p.1.all (fun d => Plain d) := by decide
    exact List.all_iff_forall_prop.mp (hall _ h)
  | decimal hne hdigits hvalue hlen =>
    exact List.forall_mem_cons.mpr ⟨by decide, fun d hd => plain_of_toDigit (hdigits d hd)⟩
  | hexadecimal hx hne hdigits hvalue hlen =>
    refine List.forall_mem_cons.mpr ⟨by decide, List.forall_mem_cons.mpr ⟨?_, fun d hd => ?_⟩⟩
    · rcases hx with rfl | rfl
      · decide
      · decide
    · exact plain_of_toDigit (hdigits d hd)

theorem Stands.length_le {name : Text} {c : Char} (h : Stands name c) : name.length ≤ ENTITY_MAX_LEN := by
  cases h with
  | named h =>
    have hall : ∀ p ∈ XML_ENTITIES, p.1.length ≤ ENTITY_MAX_LEN := by decide
    exact hall _ h
  | decimal hne hdigits hvalue hlen =>
    rw [List.length_cons, ENTITY_MAX_LEN]
    omega
  | hexadecimal hx hne hdigits hvalue hlen =>
    rw [List.length_cons, List.length_cons, ENTITY_MAX_LEN]
    omega

theorem Stands.size_le {name : Text} {c : Char} (h : Stands name c) :
    (name.map Char.utf8Size).sum ≤ ENTITY_MAX_LEN := by
  have hone : name.map Char.utf8Size = name.map fun _ => 1 :=
    List.map_congr_left fun d hd => (h.plain d hd).utf8Size
  rw [hone, List.map_const', List.sum_replicate_nat, mul_one]
  exact h.length_le

theorem head_ne_of_digit {radix : ℕ} {digits : Text} {c : Char} (hdigits : ∀ d ∈ digits, (toDigit radix d).isSome)
    (hc : toDigit radix c = none) : digits.head? ≠ some c := by
  intro hhead
  have hsome := hdigits c (List.mem_of_head? hhead)
  rw [hc] at hsome
  cases hsome

theorem parseU32_digits {radix : ℕ} {digits : Text} {c : Char} (hplus : toDigit radix '+' = none)
    (hne : digits ≠ []) (hdigits : ∀ d ∈ digits, (toDigit radix d).isSome)
    (hvalue : value radix digits = c.toNat) : parseU32 radix digits = some c.toNat := by
  have hlt : c.toNat < 2 ^ 32 := c.val.toNat_lt
  rw [parseU32, if_neg (head_ne_of_digit hdigits hplus), if_pos ⟨hne, List.all_eq_true.mpr hdigits, hvalue ▸ hlt⟩, hvalue]

theorem charFromU32_toNat (c : Char) : charFromU32 c.toNat = some c := by
  have hvalid : c.toNat.isValidChar := c.valid
  rw [charFromU32, if_pos hvalid, Char.ofNat_toNat]

theorem Stands.entity {name : Text} {c : Char} (h : Stands name c) : entity name = some c := by
  cases h with
  | named h =>
    have hall : ∀ p ∈ XML_ENTITIES, Recipes.entity p.1 = some p.2 := by decide
    exact hall _ h
  | decimal hne hdigits hvalue hlen =>
    rw [Recipes.entity, parseU32_digits (by decide) hne hdigits hvalue]
    · exact charFromU32_toNat c
    · rintro hex rfl
      exact head_ne_of_digit hdigits (by decide) rfl
    · rintro hex rfl
      exact head_ne_of_digit hdigits (by decide) rfl
  | hexadecimal hx hne hdigits hvalue hlen =>
    have hparse := parseU32_digits (by decide) hne hdigits hvalue
    rcases hx with rfl | rfl
    · rw [Recipes.entity, hparse]
      exact charFromU32_toNat c
    · rw [Recipes.entity, hparse]
      exact charFromU32_toNat c

/-- An entity is read back, and what follows it is left. -/
theorem Stands.decoded {name : Text} {c : Char} (h : Stands name c) (rest : Text) :
    decoded (name ++ ';' :: rest) = some (c, rest) := by
  have hsemicolon : ';' ∉ name := fun hmem => (h.plain _ hmem).2.1 rfl
  rw [Recipes.decoded, cutAt_singleton rest hsemicolon]
  exact (if_pos h.size_le).trans (h.entity ▸ rfl)

theorem Glyph.decode (glyph : Glyph) (rest : Text) :
    decodeEntities (glyph.write ++ rest) = glyph.char :: decodeEntities rest := by
  cases glyph with
  | plain c h =>
    rw [Glyph.write, List.singleton_append, decodeEntities, if_pos h.1]
    rfl
  | reference name c h =>
    rw [Glyph.write, List.cons_append, List.append_assoc, List.singleton_append, decodeEntities,
      if_neg (by simp)]
    split
    · rename_i d left hread
      rw [h.decoded rest] at hread
      obtain ⟨rfl, rfl⟩ := Prod.mk.inj (Option.some.inj hread)
      rfl
    · rename_i hread
      rw [h.decoded rest] at hread
      cases hread

/-- A text is decoded on its own, whatever follows it. -/
theorem Glyphs.decode (glyphs : Glyphs) (rest : Text) :
    decodeEntities (glyphs.write ++ rest) = glyphs.chars ++ decodeEntities rest := by
  induction glyphs with
  | nil => rfl
  | cons glyph glyphs ih =>
    rw [Glyphs.write, List.flatMap_cons, List.append_assoc, Glyph.decode]
    exact congrArg _ ih

theorem Glyph.less_notMem (glyph : Glyph) : '<' ∉ glyph.write := by
  cases glyph with
  | plain c h => simpa [Glyph.write] using h.2.symm
  | reference name c h =>
    have hname : '<' ∉ name := fun hmem => (h.plain _ hmem).2.2 rfl
    simp [Glyph.write, hname]

theorem Glyphs.less_notMem (glyphs : Glyphs) : '<' ∉ glyphs.write := by
  rw [Glyphs.write, List.mem_flatMap]
  rintro ⟨glyph, _, hmem⟩
  exact glyph.less_notMem hmem

theorem plainText_write (glyphs : Glyphs) : plainText glyphs.write = collapse glyphs.chars := by
  have hdecode := glyphs.decode []
  rw [List.append_nil, decodeEntities, List.append_nil] at hdecode
  rw [plainText, stripTags_eq_self _ glyphs.less_notMem, hdecode]

end Home.Recipes
