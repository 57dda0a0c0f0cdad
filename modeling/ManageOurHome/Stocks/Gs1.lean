import ManageOurHome.HttpGuard.Origin
import ManageOurHome.Lib.Net
import ManageOurHome.Stocks.Items
import ManageOurHome.Time

/-! @src apps/api/src/stocks/gs1.rs, apps/web/src/routes/stocks/photo.rs | layer:model | family:barcodes

    What a GS1 2D code says: elements, each an Application Identifier followed by its data, or the same as a URL. An
    element of a length that GS1 sets runs into the next one; any other ends at a separator. The web passes on the URLs
    the API reads. Offsets into a text are offsets into its bytes.

        01 03017620422003 · 10 LOT-42 <GS> 17 270131        https://id.gs1.org/01/03017620422003?17=270131 -/

namespace Home.Stocks

open Home.HttpGuard (splitOnce eqIgnoreAsciiCase http https)

/-- The Group Separator. -/
def GS : Char := Char.ofNat 0x1d

/-- A text cut at a byte, `None` when it is shorter or the byte is inside a character. -/
def splitAtByte : ℕ → Text → Option (Text × Text)
  | 0, s => some ([], s)
  | _ + 1, [] => none
  | n + 1, c :: s =>
    if c.utf8Size ≤ n + 1 then (splitAtByte (n + 1 - c.utf8Size) s).map fun (before, after) => (c :: before, after)
    else none

/-- The values of the AIs read here, as the code carries them. -/
structure Fields where
  gtin : Option Text
  expiry : Option Text
  bestBefore : Option Text
  deriving DecidableEq

def Fields.default : Fields := ⟨none, none, none⟩

/-- Keeps the first value of each AI read here; ignores every other AI. -/
def Fields.set (fields : Fields) (ai value : Text) : Fields :=
  if ai = ['0', '1'] then { fields with gtin := fields.gtin <|> some value }
  else if ai = ['1', '7'] then { fields with expiry := fields.expiry <|> some value }
  else if ai = ['1', '5'] then { fields with bestBefore := fields.bestBefore <|> some value }
  else fields

/-! ### Element strings -/

/-- The length, AI included, of the elements whose length GS1 predefines, by the AI's first two digits. -/
def predefinedLength : Text → Option ℕ
  | ['0', '0'] => some 20
  | ['0', '1'] | ['0', '2'] | ['0', '3'] => some 16
  | ['0', '4'] => some 18
  | ['1', '1'] | ['1', '2'] | ['1', '3'] | ['1', '4'] | ['1', '5'] | ['1', '6'] | ['1', '7'] | ['1', '8'] | ['1', '9'] =>
    some 8
  | ['2', '0'] => some 4
  | ['3', '1'] | ['3', '2'] | ['3', '3'] | ['3', '4'] | ['3', '5'] | ['3', '6'] => some 10
  | ['4', '1'] => some 16
  | _ => none

/-- The element a text starts with: the first two digits of its AI, and all of it. -/
def nextElement (rest : Text) : Option (Text × Text) := do
  let (prefix_, _) ← (splitAtByte 2 rest).filter fun cut => cut.1.all Char.isDigit
  match predefinedLength prefix_ with
  | some len => (splitAtByte len rest).bind fun cut => if cut.1.all Char.isDigit then some (prefix_, cut.1) else none
  | none => some (prefix_, rest.takeWhile (· ≠ GS))

/-- `element_string`'s loop. `none`: an element is cut short or does not start with an AI, or the loop has not ended
    within `fuel` turns. -/
def elements : ℕ → Fields → Text → Option Fields
  | 0, _, _ => none
  | fuel + 1, fields, rest =>
    -- a separator after a predefined-length element is allowed too
    let rest := rest.dropWhile (· = GS)
    if rest = [] then some fields
    else match nextElement rest with
      | none => none
      | some (prefix_, element) =>
        elements fuel (fields.set prefix_ (element.drop 2)) (rest.drop element.length)

/-- An element string, after an optional symbology identifier. -/
def elementString (raw : Text) : Option Fields := do
  let rest ← match stripPrefix [']'] raw with
    | some identified => (splitAtByte 2 identified).map Prod.snd
    | none => some raw
  elements (rest.length + 1) Fields.default rest

/-! ### Digital Links -/

def schemeSeparator : Text := [':', '/', '/']

def isUrl (raw : Text) : Bool :=
  ((splitOnce schemeSeparator raw).map Prod.fst).any fun s => eqIgnoreAsciiCase s http || eqIgnoreAsciiCase s https

/-- 8, 12, 13 or 14 digits whose GS1 check digit holds. -/
def isGtin (segment : Text) : Bool :=
  segment.length ∈ [8, 12, 13, 14] && segment.all Char.isDigit && checkDigitHolds segment

/-- The segments of a path two by two. -/
def pairs (segments : List Text) : List (Text × Text) := segments.zip segments.tail

def gtinPair (pair : Text × Text) : Bool := pair.1 = ['0', '1'] && isGtin pair.2

/-- A GS1 Digital Link: the GTIN is the segment after the last `01` segment that a GTIN follows. -/
def digitalLink (raw : Text) : Option Fields := do
  let raw := raw.takeWhile (· ≠ '#')
  let (path, query) := (splitOnce ['?'] raw).getD (raw, [])
  let (_, afterScheme) ← splitOnce schemeSeparator path
  -- the first segment is the host
  let segments := (afterScheme.splitOn '/').drop 1
  let gtin ← ((pairs segments).reverse.find? gtinPair).map Prod.snd
  let fields := Fields.default.set ['0', '1'] (gtin.leftpad 14 '0')
  return (query.splitOn '&').foldl (fun fields pair =>
    match splitOnce ['='] pair with
    | some (key, value) => fields.set key value
    | none => fields) fields

/-! ### The code and the date -/

/-- The number at two characters of a field. -/
def number (yymmdd : Text) (i : ℕ) : ℕ := Net.value 10 ((yymmdd.drop i).take 2)

/-- The date of a GS1 `YYMMDD` field, in the century GS1's sliding window puts it; a day `00` is the last day of the
    month. -/
def gs1Date (yymmdd : Text) (today : NaiveDate) : Option NaiveDate :=
  if yymmdd.length ≠ 6 ∨ !yymmdd.all Char.isDigit then none
  else
    let yy : ℤ := number yymmdd 0
    let month := number yymmdd 2
    let dd := number yymmdd 4
    let current := today.year % 100
    let century := today.year - current
    let year := yy + if 51 ≤ yy - current then century - 100 else if yy - current ≤ -50 then century + 100 else century
    if dd = 0 then
      if ¬(1 ≤ month ∧ month ≤ 12) then none
      -- the day before the first of the next month
      else if month = 12 then (Gregorian.Date.ofYmd (year + 1) 1 1).bind Gregorian.Date.pred
      else (Gregorian.Date.ofYmd year (month + 1) 1).bind Gregorian.Date.pred
    else Gregorian.Date.ofYmd year month dd

/-- The product code behind a GTIN-14: its EAN-13 form, or its EAN-8 when it is a GTIN-8 padded to 14. -/
def gtinToCode (gtin : Text) : Option Text :=
  if gtin.length ≠ 14 ∨ !gtin.all Char.isDigit then none
  else do
    let thirteen ← stripPrefix ['0'] gtin
    match stripPrefix ['0', '0', '0', '0', '0'] thirteen with
    | some eight => normalize eight
    | none => normalize thirteen

/-- What a GS1 code says: the product code, and the date it carries. -/
structure Gs1Read where
  code : Text
  expiresOn : Option NaiveDate
  deriving DecidableEq

def read (raw : Text) (today : NaiveDate) : Option Gs1Read := do
  let raw := trim raw
  let fields ← if isUrl raw then digitalLink raw else elementString raw
  let code ← gtinToCode (← fields.gtin)
  -- (17) before (15); an unreadable (17) does not hide a readable (15)
  let expiresOn := [fields.expiry, fields.bestBefore].reduceOption.findSome? fun date => gs1Date date today
  return ⟨code, expiresOn⟩

/-! ### `photo.rs` -/

namespace Photo

/-- The identifiers of a DataMatrix or a QR code with FNC1 in first position. -/
def gs1Symbologies : List Text := [[']', 'd', '2'], [']', 'd', '5'], [']', 'Q', '3'], [']', 'Q', '4']]

def isGtin (segment : Text) : Bool :=
  segment.length ∈ [8, 12, 13, 14] && segment.all Char.isDigit &&
    ((segment.reverse.zipIdx.map fun (b, i) => (b.toNat - '0'.toNat) * if i % 2 = 0 then 1 else 3).sum % 10 = 0)

/-- The segments of a URL's path, its host left out. -/
def segments (rest : Text) : List Text := ((rest.takeWhile fun c => c ≠ '?' ∧ c ≠ '#').splitOn '/').drop 1

/-- Whether a 2D code is a GS1 one. -/
def isGs1_2d (text : Text) (symbology : Option Text) : Bool :=
  if symbology.any (· ∈ gs1Symbologies) then true
  else match splitOnce schemeSeparator text with
    | none => false
    | some (scheme, rest) =>
      if !(eqIgnoreAsciiCase scheme http || eqIgnoreAsciiCase scheme https) then false
      else (pairs (segments rest)).any fun pair => pair.1 = ['0', '1'] && isGtin pair.2

end Photo

end Home.Stocks
