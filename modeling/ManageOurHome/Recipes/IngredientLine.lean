import ManageOurHome.Float
import ManageOurHome.HttpGuard.Origin
import ManageOurHome.Lib.Utf8
import ManageOurHome.Recipes.Steps

/-! @src apps/api/src/recipes/ingredient_line.rs | layer:model | family:recipe import

    A line of ingredients, as quantity, unit and name: a number first, or a name and a colon first. A line that is not
    understood is a name, whole.

        200 g de farine   200, g, farine          Ail : 3 gousses (hachées)   3, gousse, Ail          2-3 tomates   a name

    A string is sliced by its bytes: `none` is a slice that panics. The tables of Unicode are parameters. -/

namespace Home.Recipes.IngredientLine

open HttpGuard (splitOnce)
open Utf8 (size dropBytes takeBytes)

structure DraftIngredient where
  quantity : Option F64
  unit : Option Text
  name : Text
  deriving DecidableEq

variable (lowercase : Char → Text) (alphabetic alphanumeric : Char → Bool)

/-! ### Texts -/

/-- `str::char_indices`, from an offset. -/
def charIndices : ℕ → Text → List (ℕ × Char)
  | _, [] => []
  | i, c :: s => (i, c) :: charIndices (i + c.utf8Size) s

/-- Where what is expected ends, if it is there. -/
def endOf : Text → List (ℕ × Char) → ℕ → Option ℕ
  | [], _, stop => some stop
  | _ :: _, [], _ => none
  | expected :: pat, (i, c) :: chars, _ =>
    if lowercase c = lowercase expected then endOf pat chars (i + c.utf8Size) else none

/-- `text` without `pat`, compared without regard to case. -/
def stripPrefixCi (text pat : Text) : Option (Option Text) :=
  match endOf lowercase pat (charIndices 0 text) 0 with
  | none => some none
  | some stop => (dropBytes text stop).map some

/-- What follows the first of several that is there. -/
def firstPrefixCi (text : Text) : List Text → Option (Option Text)
  | [] => some none
  | pat :: pats =>
    (stripPrefixCi lowercase text pat).bind fun
      | some after => some (some after)
      | none => firstPrefixCi text pats

/-- Whether one of several is there, and what follows it is accepted. -/
def anyPrefixCi (text : Text) (accept : Text → Bool) : List Text → Option Bool
  | [] => some false
  | pat :: pats =>
    (stripPrefixCi lowercase text pat).bind fun after =>
      if after.any accept then some true else anyPrefixCi text accept pats

/-- `str::strip_prefix` of one character among several. -/
def stripOne (chars : List Char) : Text → Option Text
  | [] => none
  | c :: s => if c ∈ chars then some s else none

/-! ### Numbers -/

/-- The vulgar fractions recipe sites use. -/
def FRACTIONS : List (Char × F64) :=
  [('½', .finite (1 / 2)), ('¼', .finite (1 / 4)), ('¾', .finite (3 / 4)), ('⅓', F64.div (.finite 1) (.finite 3)),
    ('⅔', F64.div (.finite 2) (.finite 3)), ('⅛', .finite (1 / 8))]

def fraction (c : Char) : Option F64 := (FRACTIONS.find? fun f => f.1 = c).map Prod.snd

/-- The vulgar fraction at the head of a text, and what follows it. -/
def vulgar (text : Text) : Option (Option (F64 × Text)) :=
  match text with
  | [] => some none
  | c :: _ =>
    match fraction c with
    | none => some none
    | some value => (dropBytes text c.utf8Size).map fun rest => some (value, rest)

/-- The ASCII digits `text` starts with, as a number, and what follows. -/
def digits (text : Text) : Option (Option (F64 × Text)) :=
  let stop := (Utf8.find (fun c => !c.isDigit) text).getD (size text)
  if stop = 0 then some none
  else
    (takeBytes text stop).bind fun number => (dropBytes text stop).map fun rest =>
      (parseF64 number).map fun v => (v, rest)

/-- What is over a denominator, which is not zero, and what follows it. -/
def divided (whole : F64 → F64) (text : Text) : Option (Option (F64 × Text)) :=
  (digits text).map fun found => found.bind fun (denominator, rest) =>
    if denominator ≠ .finite 0 then some (whole denominator, rest) else none

/-- The number with its decimals, if digits follow the separator. -/
def decimal (line rest : Text) : Option (Option (Option (F64 × Text))) :=
  match stripOne ['.', ','] rest with
  | none => some none
  | some decimals =>
    (digits decimals).bind fun
      | none => some none
      | some (_, after) =>
        (takeBytes line (size line - size after)).map fun text =>
          some ((parseF64 (text.map fun c => if c = ',' then '.' else c)).map fun v => (v, after))

/-- A whole number, and a fraction that may follow it. -/
def mixed (whole : F64) (rest : Text) : Option (Option (F64 × Text)) :=
  (vulgar (trimStart rest)).bind fun
    | some (value, after) => some (some (whole.add value, after))
    | none =>
      if size (trimStart rest) < size rest then
        (digits (trimStart rest)).bind fun
          | none => some (some (whole, rest))
          | some (numerator, after) =>
            match stripPrefix ['/'] after with
            | none => some (some (whole, rest))
            | some after => divided (fun denominator => whole.add (numerator.div denominator)) after
      else some (some (whole, rest))

/-- A decimal number, a fraction `a/b`, a whole number and a fraction, or a whole number and a vulgar fraction. -/
def number (line : Text) : Option (Option (F64 × Text)) :=
  (digits line).bind fun
    | none => some none
    | some (whole, rest) =>
      match stripPrefix ['/'] rest with
      | some rest => divided (fun denominator => whole.div denominator) rest
      | none =>
        (decimal line rest).bind fun
          | some found => some found
          | none => mixed whole rest

/-- The quantity `line` starts with, and what follows it. It ends at a space, a letter or the end of the line. -/
def quantity (line : Text) : Option (Option (F64 × Text)) :=
  (firstPrefixCi lowercase line ["une".toList, "un".toList]).bind fun
    | some rest => some (if rest.head?.any isWhitespace then some (.finite 1, rest) else none)
    | none =>
      ((vulgar line).bind fun
        | some found => some (some found)
        | none => number line).map fun found =>
          found.filter fun (_, rest) => rest.head?.all fun c => isWhitespace c || alphabetic c

/-! ### What follows -/

/-- `à 3`, `a 3`, `ou 3`, `-3`: the line gives a range, not a quantity. -/
def isRange (rest : Text) : Option Bool :=
  (firstPrefixCi lowercase rest ["-".toList, "à ".toList, "a ".toList, "ou ".toList]).map fun after =>
    after.any fun a => (trimStart a).head?.any Char.isDigit

/-- Units of time. -/
def DURATIONS : List Text :=
  ["minutes", "minute", "min", "mn", "heures", "heure", "h", "secondes", "seconde", "sec", "jours", "jour", "nuits",
    "nuit"].map String.toList

def isDuration (rest : Text) : Option Bool :=
  anyPrefixCi lowercase rest (fun after => !after.head?.any alphanumeric) DURATIONS

def isVague (rest : Text) : Option Bool :=
  anyPrefixCi lowercase rest (fun after => after = [] || after.head?.any isWhitespace) ["peu".toList]

/-- A spelling, the unit written in the draft, and whether a plural ending may follow. -/
structure Spelling where
  spelling : Text
  unit : Text
  plural : Bool
  deriving DecidableEq

def UNITS : List (List String × String × Bool) :=
  [(["kilogrammes", "kilogramme", "kilos", "kilo", "kg"], "kg", false),
    (["grammes", "gramme", "gr", "g"], "g", false),
    (["milligrammes", "milligramme", "mg"], "mg", false),
    (["litres", "litre", "l"], "l", false),
    (["décilitres", "décilitre", "dl"], "dl", false),
    (["centilitres", "centilitre", "cl"], "cl", false),
    (["millilitres", "millilitre", "ml"], "ml", false),
    (["centimètres", "centimètre", "centimetres", "centimetre", "cm"], "cm", false),
    (["pincée", "pincee"], "pincée", true),
    (["sachet"], "sachet", true),
    (["tranche"], "tranche", true),
    (["gousse"], "gousse", true),
    (["boîte", "boite"], "boîte", true),
    (["pot"], "pot", true),
    (["verre"], "verre", true),
    (["tasse"], "tasse", true),
    (["brin"], "brin", true),
    (["botte"], "botte", true),
    (["feuille"], "feuille", true),
    (["morceau"], "morceau", true),
    (["poignée", "poignee"], "poignée", true),
    (["goutte"], "goutte", true),
    (["branche"], "branche", true),
    (["paquet"], "paquet", true),
    (["bol"], "bol", true)]

/-- Every spelling of the two spoons. -/
def SPOONS : List (String × String) :=
  let heads := ["cuillères", "cuillère", "cuilleres", "cuillere", "cuillerées", "cuillerée", "cuil.", "cuil", "c.", "c"]
  let joins := [" à ", " a ", "à.", "a."]
  ([(["soupe", "s.", "s"], "c. à soupe"), (["café", "cafe", "c"], "c. à café")].flatMap fun (tails, unit) =>
      heads.flatMap fun head => joins.flatMap fun join => tails.map fun tail => (head ++ join ++ tail, unit)) ++
    [("càs", "c. à soupe"), ("cs", "c. à soupe"), ("càc", "c. à café"), ("cc", "c. à café")]

/-- The spellings in the order they are considered. -/
def spellings : List Spelling :=
  (UNITS.flatMap fun (spellings, unit, plural) => spellings.map fun s => ⟨s.toList, unit.toList, plural⟩) ++
    SPOONS.map fun (s, unit) => ⟨s.toList, unit.toList, false⟩

/-- What follows a spelling with its plural ending. -/
def afterPlural (after : Text) : Text :=
  (["(s)".toList, ['s'], ['x']].findSome? fun ending => stripPrefix ending after).getD after

/-- The longest so far: how long, its unit, and what follows it. -/
abbrev Best := Option (ℕ × Text × Text)

def consider (rest : Text) (best : Best) (s : Spelling) : Option Best :=
  (stripPrefixCi lowercase rest s.spelling).map fun
    | none => best
    | some after =>
      let after := if s.plural then afterPlural after else after
      let ends := s.spelling.getLast? = some '.' || after = [] ||
        after.head?.any fun c => isWhitespace c || c = ',' || c = ';'
      let length := size rest - size after
      if ends && best.all fun (l, _) => l < length then some (length, s.unit, after) else best

/-- The unit `rest` starts with, and what follows it. -/
def unit (rest : Text) : Option (Option (Text × Text)) :=
  (spellings.foldlM (consider lowercase rest) none).map fun best => best.map Prod.snd

/-! ### A line -/

def ofs : List Text := ["de ".toList, "d'".toList, "d’".toList]

/-- The unit, and what follows it or the quantity. -/
def unitOf (rest : Text) (found : Option (Text × Text)) : Option Text × Text :=
  match found with
  | some (unit, rest) => (some unit, trimStart rest)
  | none => (none, rest)

/-- A thousandth, a half up. -/
def thousandths (quantity : F64) : F64 := (quantity.mul (.finite 1000)).round.div (.finite 1000)

/-- Whether what follows a quantity makes it none. -/
def refused (rest : Text) : Option Bool :=
  (isRange lowercase rest).bind fun range => if range then some true else
    (isVague lowercase rest).bind fun vague => if vague then some true else isDuration lowercase alphanumeric rest

def understood (line : Text) : Option (Option DraftIngredient) :=
  (quantity lowercase alphabetic line).bind fun
    | none => some none
    | some (quantity, rest) =>
      (refused lowercase alphanumeric (trimStart rest)).bind fun refused =>
        if refused then some none
        else
          (unit lowercase (trimStart rest)).bind fun found =>
            let (unit, rest) := unitOf (trimStart rest) found
            (firstPrefixCi lowercase rest ofs).map fun after =>
              let name := trim (after.getD rest)
              if name = [] then none else some ⟨some (thousandths quantity), unit, name⟩

/-- The size of each, where a quantity counts measures. -/
def counted (quantity' : F64) (rest : Text) : Option (Option (F64 × Text × Bool)) :=
  match stripOne ['x', 'X', '×'] rest with
  | none => some (some (quantity', rest, false))
  | some each =>
    (quantity lowercase alphabetic (trimStart each)).map fun found => found.map fun (size, after) =>
      (quantity'.mul size, trimStart after, true)

/-- `nom : mesure [note]`. -/
def nameFirst (line : Text) : Option (Option DraftIngredient) :=
  match splitOnce [':'] line with
  | none => some none
  | some (name, measure) =>
    if trim name = [] then some none
    else
      (quantity lowercase alphabetic (trim measure)).bind fun
        | none => some none
        | some (quantity, rest) =>
          (counted lowercase alphabetic quantity (trimStart rest)).bind fun
            | none => some none
            | some (quantity, rest, counted) =>
              (refused lowercase alphanumeric rest).bind fun refused =>
                if refused then some none
                else
                  (unit lowercase rest).bind fun found =>
                    if found = none ∧ counted then some none
                    else
                      let (unit, rest) := unitOf rest found
                      (anyPrefixCi lowercase rest (fun _ => true) ofs).bind fun of' =>
                        if of' then
                          if counted then some none else understood lowercase alphabetic alphanumeric (trim measure)
                        else if rest = [] ∨ rest.head?.any (· ∈ ['(', ',', ';']) then
                          some (some ⟨some (thousandths quantity), unit, trim name⟩)
                        else some none

def parseLine (line : Text) : Option DraftIngredient :=
  (understood lowercase alphabetic alphanumeric (trim line)).bind fun
    | some draft => some draft
    | none =>
      (nameFirst lowercase alphabetic alphanumeric (trim line)).map fun draft =>
        draft.getD ⟨none, none, trim line⟩

end Home.Recipes.IngredientLine
