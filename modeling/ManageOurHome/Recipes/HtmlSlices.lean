import ManageOurHome.Lib.Loop
import ManageOurHome.Lib.Utf8
import ManageOurHome.Recipes.PageTokens

/-! @src apps/api/src/recipes/html.rs | layer:proof | family:text of a page

    `tokenize` as it is run, by the byte offsets of the page: a slice past the end or inside of a character is a panic,
    none. It never panics, it gives the tokens of the page, and the slices they hold stand in the page in order.

        <p id=a>dé&nbsp;<br/>        attributes 2..7   text 8..17   attributes 20..20 -/

namespace Home.Recipes.Html

open Loop Utf8

/-- A `&str` of the page: where it stands, and what it reads. -/
structure Slice where
  lo : ℕ
  hi : ℕ
  text : Text
  deriving DecidableEq

/-- A token, as slices of the page. -/
inductive PageToken where
  | start (name : Text) (attributes : Slice)
  | endTag (name : Text)
  | text (t : Slice)
  deriving DecidableEq

def PageToken.token : PageToken → Token
  | .start name attributes => .start name attributes.text
  | .endTag name => .endTag name
  | .text t => .text t.text

def PageToken.slice : PageToken → Option Slice
  | .start _ attributes => some attributes
  | .endTag _ => none
  | .text t => some t

/-! ### The scan -/

/-- `&html[lo..hi]`. -/
def sliceOf (html : Text) (lo hi : ℕ) : Option Slice := (slice html lo hi).map fun text => ⟨lo, hi, text⟩

def isAsciiSpace (b : UInt8) : Bool := b == 0x20 || b == 0x09 || b == 0x0A || b == 0x0C || b == 0x0D

/-- `u8`s of ASCII letters. -/
def isAsciiLetter (b : UInt8) : Bool := (0x61 ≤ b && b ≤ 0x7A) || (0x41 ≤ b && b ≤ 0x5A)

/-- `tag_end`, from its byte `i` on. -/
def tagEndAt (quote : Option UInt8) (afterEquals : Bool) (i : ℕ) : List UInt8 → Option ℕ
  | [] => none
  | b :: rest =>
    match quote with
    | some q => if b = q then tagEndAt none afterEquals (i + 1) rest else tagEndAt (some q) false (i + 1) rest
    | none =>
      if b = 0x3E then some i
      else if (b = 0x22 ∨ b = 0x27) ∧ afterEquals then tagEndAt (some b) false (i + 1) rest
      else if b = 0x3D then tagEndAt none true (i + 1) rest
      else if isAsciiSpace b then tagEndAt none afterEquals (i + 1) rest
      else tagEndAt none false (i + 1) rest

/-- The variables of the scan. -/
structure Scan where
  tokens : List PageToken
  textFrom : ℕ
  start : ℕ

/-- The text before `pos`, if there is any. -/
def Scan.pushText (html : Text) (s : Scan) (pos : ℕ) : Option (List PageToken) :=
  if s.textFrom < pos then (sliceOf html s.textFrom pos).map fun t => s.tokens ++ [.text t] else some s.tokens

/-- Where the comment or the declaration at `pos` closes. -/
def markupEnd (lower : Text) (pos : ℕ) : Option (Option ℕ) := do
  let markup ← dropBytes lower pos
  if commentStart <+: markup then
    return (findStr commentEnd (← dropBytes lower (pos + 4))).map fun e => pos + 4 + e + 3
  return (find (· = '>') markup).map fun e => pos + e + 1

/-- Where the end tag of the `script` or the `style` whose content is at `pos` closes. -/
def rawEnd (lower name : Text) (pos : ℕ) : Option (Option ℕ) := do
  match findStr ('<' :: '/' :: name) (← dropBytes lower pos) with
  | none => return none
  | some e =>
    let close := pos + e
    return (find (· = '>') (← dropBytes lower close)).map fun gt => close + gt + 1

/-- The tag at `pos`. -/
def Scan.tagTurn (html lower : Text) (s : Scan) (closing : Bool) (pos : ℕ) :
    Option (Turn Scan (List PageToken)) := do
  let nameFrom := pos + 1 + closing.toNat
  let named ← dropBytes lower nameFrom
  let nameEnd := nameFrom + (find (fun c => !isNameChar c) named).getD (size lower - nameFrom)
  match tagEndAt none false 0 (bytes (← dropBytes html nameEnd)) with
  | none => return .done (s.tokens ++ [.text (← sliceOf html s.textFrom (size html))])
  | some e =>
    let gt := nameEnd + e
    let tokens ← s.pushText html pos
    let name ← slice lower nameFrom nameEnd
    if closing then return .again ⟨if name = [] then tokens else tokens ++ [.endTag name], gt + 1, gt + 1⟩
    if name = script ∨ name = style then
      match ← rawEnd lower name (gt + 1) with
      | none => return .done tokens
      | some after => return .again ⟨tokens, after, after⟩
    let trimmed := (← slice html nameEnd gt).rdropWhile (· = '/')
    return .again ⟨tokens ++ [.start name ⟨nameEnd, nameEnd + size trimmed, trimmed⟩], gt + 1, gt + 1⟩

/-- A turn: what the next `<` opens. -/
def scanTurn (html : Text) (s : Scan) : Option (Turn Scan (List PageToken)) := do
  let lower := asciiLowercase html
  match find (· = '<') (← dropBytes html s.start) with
  | none =>
    if s.textFrom < size html then return .done (s.tokens ++ [.text (← sliceOf html s.textFrom (size html))])
    return .done s.tokens
  | some found =>
    let pos := s.start + found
    let next := (bytes html)[pos + 1]?
    if next.any (· == 0x21) then
      let tokens ← s.pushText html pos
      match ← markupEnd lower pos with
      | none => return .done tokens
      | some after => return .again ⟨tokens, after, after⟩
    if next.any (· == 0x2F) || next.any isAsciiLetter then s.tagTurn html lower (next.any (· == 0x2F)) pos
    else return .again { s with start := pos + 1 }

/-- `tokenize`. -/
def tokenizeSlices (html : Text) : Option (List PageToken) := run (scanTurn html) (size html + 1) ⟨[], 0, 0⟩

/-- The slices of the tokens are of the page, disjoint and in its order. -/
structure Placed (html : Text) (tokens : List PageToken) : Prop where
  reads : ∀ t ∈ tokens.filterMap PageToken.slice, slice html t.lo t.hi = some t.text
  ordered : (tokens.filterMap PageToken.slice).Pairwise fun a b => a.hi ≤ b.lo

/-! ### Lowercasing keeps the bytes in place -/

theorem utf8Size_toLower (c : Char) : c.toLower.utf8Size = c.utf8Size := by
  by_cases hc : 65 ≤ c.toNat ∧ c.toNat ≤ 90
  · have hlower : c.toLower.toNat ≤ 127 := by
      rw [toNat_toLower, if_pos hc]
      omega
    have hone : c.utf8Size = 1 := Char.utf8Size_eq_one_iff.mpr (UInt32.le_iff_toNat_le.mpr (by
      change c.toNat ≤ 127
      omega))
    rw [hone]
    exact Char.utf8Size_eq_one_iff.mpr (UInt32.le_iff_toNat_le.mpr hlower)
  · have heq : c.toLower = c := by
      rw [← Char.toNat_inj, toNat_toLower, if_neg hc]
    rw [heq]

theorem isNameChar_iff {c : Char} : isNameChar c = true ↔ ((65 ≤ c.toNat ∧ c.toNat ≤ 90) ∨
    (97 ≤ c.toNat ∧ c.toNat ≤ 122)) ∨ (48 ≤ c.toNat ∧ c.toNat ≤ 57) ∨ c.toNat = 45 := by
  have hdash : c = '-' ↔ c.toNat = 45 := Char.toNat_inj.symm
  delta isNameChar Char.isAlphanum Char.isAlpha Char.isUpper Char.isLower Char.isDigit
  simp only [Bool.or_eq_true, Bool.and_eq_true, decide_eq_true_eq, UInt32.le_iff_toNat_le, ge_iff_le, hdash]
  change (((65 ≤ c.toNat ∧ c.toNat ≤ 90) ∨ (97 ≤ c.toNat ∧ c.toNat ≤ 122)) ∨
    (48 ≤ c.toNat ∧ c.toNat ≤ 57)) ∨ c.toNat = 45 ↔ _
  rw [or_assoc]

theorem isNameChar_toLower (c : Char) : isNameChar c.toLower = isNameChar c := by
  rw [Bool.eq_iff_iff, isNameChar_iff, isNameChar_iff, toNat_toLower]
  split <;> omega

theorem size_lower (s : Text) : size (asciiLowercase s) = size s := size_map utf8Size_toLower s

theorem lower_append (s t : Text) : asciiLowercase (s ++ t) = asciiLowercase s ++ asciiLowercase t :=
  List.map_append

theorem dropBytes_lower (pre rest : Text) :
    dropBytes (asciiLowercase (pre ++ rest)) (size pre) = some (asciiLowercase rest) := by
  rw [lower_append, ← size_lower, dropBytes_append]

theorem prefix_lower {pat s : Text} (hpat : ∀ d ∈ pat, Unlettered d) : pat <+: asciiLowercase s ↔ pat <+: s := by
  induction pat generalizing s with
  | nil => exact iff_of_true List.nil_prefix List.nil_prefix
  | cons d pat ih =>
    rw [List.forall_mem_cons] at hpat
    cases s with
    | nil => exact Iff.rfl
    | cons c s =>
      rw [asciiLowercase, List.map_cons, List.cons_prefix_cons, List.cons_prefix_cons, eq_comm, toLower_eq_iff hpat.1,
        eq_comm]
      exact and_congr_right fun _ => ih hpat.2

theorem cutAt_lower {pat : Text} (hpat : ∀ d ∈ pat, Unlettered d) (s : Text) :
    cutAt pat (asciiLowercase s) =
      (cutAt pat s).map fun cut => (asciiLowercase cut.1, asciiLowercase cut.2) := by
  induction s with
  | nil =>
    change cutAt pat [] = _
    rw [cutAt]
    split <;> rfl
  | cons c s ih =>
    have hstarts : pat <+: c.toLower :: asciiLowercase s ↔ pat <+: c :: s := prefix_lower (s := c :: s) hpat
    change cutAt pat (c.toLower :: asciiLowercase s) = _
    rw [cutAt, cutAt]
    simp only [hstarts]
    split
    · change some ([], (asciiLowercase (c :: s)).drop pat.length) = _
      rw [asciiLowercase, ← List.map_drop]
      rfl
    · rw [ih, Option.map_map, Option.map_map]
      rfl

/-! ### What the searches find -/

theorem findStr_eq (pat s : Text) : findStr pat s = (cutAt pat s).map fun cut => size cut.1 := by
  induction s with
  | nil =>
    rw [findStr, cutAt]
    split <;> rfl
  | cons c s ih =>
    rw [findStr, cutAt]
    split
    · rfl
    · rw [ih, Option.map_map, Option.map_map]
      exact congrArg (fun f => (cutAt pat s).map f) (funext fun cut => (size_cons c cut.1).symm)

/-- A character is where its first occurrence cuts. -/
theorem find_eq_cutAt (d : Char) (s : Text) : find (· = d) s = (cutAt [d] s).map fun cut => size cut.1 := by
  induction s with
  | nil => rfl
  | cons c s ih =>
    rw [cutAt]
    by_cases hc : c = d
    · subst hc
      rw [if_pos (by simp)]
      simp [find]
    · rw [if_neg (by simp [Ne.symm hc]), Option.map_map]
      have hcons : find (· = d) (c :: s) = (find (· = d) s).map fun n => c.utf8Size + n := by
        rw [find, find, List.any_cons, List.takeWhile_cons_of_pos (by simp [hc]), decide_eq_false hc, Bool.false_or]
        split
        · rw [size_cons, Option.map_some]
        · rfl
      rw [hcons, ih, Option.map_map]
      exact congrArg (fun f => (cutAt [d] s).map f) (funext fun cut => (size_cons c cut.1).symm)

/-- The characters of a name, or all there are. -/
theorem getD_find (p : Char → Bool) (s : Text) :
    (find (fun c => !p c) s).getD (size s) = size (s.takeWhile p) := by
  rw [find]
  split
  · simp
  · rename_i hany
    have hall : ∀ c ∈ s, p c = true := fun c hc => by
      by_contra hp
      exact hany (List.any_eq_true.mpr ⟨c, hc, by simpa using hp⟩)
    rw [List.takeWhile_eq_self_iff.mpr hall]
    rfl

/-! ### The end of a tag, by its bytes -/

theorem tagEnd_eq_append {quote : Option Char} {afterEquals : Bool} {rest attributes after : Text}
    (h : tagEnd quote afterEquals rest = some (attributes, after)) : rest = attributes ++ '>' :: after := by
  induction rest generalizing quote afterEquals attributes with
  | nil => cases h
  | cons b rest ih =>
    have hkeep : ∀ {quote afterEquals},
        (tagEnd quote afterEquals rest).map (fun cut => (b :: cut.1, cut.2)) = some (attributes, after) →
          b :: rest = attributes ++ '>' :: after := by
      intro quote afterEquals hmap
      obtain ⟨⟨a, t⟩, hrest, heq⟩ := Option.map_eq_some_iff.mp hmap
      obtain ⟨rfl, rfl⟩ := Prod.mk.inj heq
      rw [ih hrest]
      rfl
    rcases quote with _ | q
    · rw [tagEnd] at h
      split at h
      · rename_i hb
        obtain ⟨rfl, rfl⟩ := Prod.mk.inj (Option.some.inj h)
        rw [hb]
        rfl
      · split at h
        · exact hkeep h
        · split at h
          · exact hkeep h
          · split at h
            · exact hkeep h
            · exact hkeep h
    · rw [tagEnd] at h
      split at h
      · exact hkeep h
      · exact hkeep h

/-- Bytes of no ASCII character end nothing. -/
theorem tagEndAt_high {l : List UInt8} (hl : ∀ b ∈ l, 128 ≤ b.toNat) (hne : l ≠ []) {quote : Option UInt8}
    (hquote : ∀ q ∈ quote, q.toNat < 128) (afterEquals : Bool) (i : ℕ) (rest : List UInt8) :
    tagEndAt quote afterEquals i (l ++ rest) = tagEndAt quote false (i + l.length) rest := by
  induction l generalizing afterEquals i with
  | nil => exact absurd rfl hne
  | cons b l ih =>
    rw [List.forall_mem_cons] at hl
    have hlit : ∀ n : UInt8, n.toNat < 128 → b ≠ n := by
      rintro n hn rfl
      omega
    have hstep : tagEndAt quote afterEquals i (b :: (l ++ rest)) = tagEndAt quote false (i + 1) (l ++ rest) := by
      cases quote with
      | none =>
        have hspace : isAsciiSpace b = false := by
          simp [isAsciiSpace, hlit 0x20 (by decide), hlit 0x09 (by decide), hlit 0x0A (by decide),
            hlit 0x0C (by decide), hlit 0x0D (by decide)]
        rw [tagEndAt]
        simp [hlit 0x3E (by decide), hlit 0x22 (by decide), hlit 0x27 (by decide), hlit 0x3D (by decide), hspace]
      | some q =>
        rw [tagEndAt]
        simp [hlit q (hquote q rfl)]
    rw [List.cons_append, hstep, List.length_cons]
    by_cases hnil : l = []
    · subst hnil
      rfl
    · rw [ih hl.2 hnil]
      congr 1
      omega

theorem ofNat_eq_iff {c d : Char} (hc : c.toNat < 128) (hd : d.toNat < 128) :
    UInt8.ofNat c.toNat = UInt8.ofNat d.toNat ↔ c = d := by
  rw [← UInt8.toNat_inj, UInt8.toNat_ofNat', UInt8.toNat_ofNat', Nat.mod_eq_of_lt (by omega),
    Nat.mod_eq_of_lt (by omega), Char.toNat_inj]

/-- The byte of a quote. -/
def quoteByte (q : Char) : UInt8 := UInt8.ofNat q.toNat

theorem isAsciiSpace_ofNat {c : Char} (hc : c.toNat < 128) :
    isAsciiSpace (UInt8.ofNat c.toNat) = isAsciiWhitespace c := by
  have hbyte : ∀ d : Char, d.toNat < 128 → (UInt8.ofNat c.toNat == UInt8.ofNat d.toNat) = decide (c = d) := by
    intro d hd
    rw [Bool.eq_iff_iff, beq_iff_eq, decide_eq_true_iff, ofNat_eq_iff hc hd]
  have hspace := hbyte ' ' (by decide)
  have htab := hbyte '\t' (by decide)
  have hline := hbyte '\n' (by decide)
  have hfeed := hbyte '\x0c' (by decide)
  have hreturn := hbyte '\r' (by decide)
  simp only [isAsciiSpace, isAsciiWhitespace, ← hspace, ← htab, ← hline, ← hfeed, ← hreturn]
  rfl

theorem map_size_cons (c : Char) (i : ℕ) (o : Option (Text × Text)) :
    (o.map fun (attributes, after) => (c :: attributes, after)).map (fun cut => i + size cut.1) =
      o.map fun cut => i + c.utf8Size + size cut.1 := by
  rw [Option.map_map]
  refine congrArg (fun f => o.map f) (funext fun cut => ?_)
  change i + size (c :: cut.1) = _
  rw [size_cons, Nat.add_assoc]

/-- A character that is not one of ASCII's ends nothing. -/
theorem tagEnd_high {c : Char} (hc : ¬c.toNat < 128) {quote : Option Char} (hquote : ∀ q ∈ quote, q.toNat < 128)
    {afterEquals : Bool} {s : Text} : tagEnd quote afterEquals (c :: s) =
      (tagEnd quote false s).map fun (attributes, after) => (c :: attributes, after) := by
  have hne : ∀ d : Char, d.toNat < 128 → c ≠ d := by
    rintro d hd rfl
    exact hc hd
  cases quote with
  | some q => rw [tagEnd]; simp [hne q (hquote q rfl)]
  | none =>
    have hspace : isAsciiWhitespace c = false := by
      simp [isAsciiWhitespace, hne ' ' (by decide), hne '\t' (by decide), hne '\n' (by decide),
        hne '\x0c' (by decide), hne '\r' (by decide)]
    rw [tagEnd]
    simp [hne '>' (by decide), hne '"' (by decide), hne '\'' (by decide), hne '=' (by decide), hspace]

/-- The tag ends at the byte where its attributes do. -/
theorem tagEndAt_bytes (s : Text) {quote : Option Char} (hquote : ∀ q ∈ quote, q.toNat < 128) (afterEquals : Bool)
    (i : ℕ) : tagEndAt (quote.map quoteByte) afterEquals i (bytes s) =
      (tagEnd quote afterEquals s).map fun cut => i + size cut.1 := by
  induction s generalizing quote afterEquals i with
  | nil => rfl
  | cons c s ih =>
    have hbytes : bytes (c :: s) = String.utf8EncodeChar c ++ bytes s := rfl
    have hkeep := map_size_cons c i
    have hnone : ∀ q ∈ (none : Option Char), q.toNat < 128 := fun q hq => by cases hq
    by_cases hc : c.toNat < 128
    · have hone : c.utf8Size = 1 := Char.utf8Size_eq_one_iff.mpr (UInt32.le_iff_toNat_le.mpr (Nat.le_of_lt_succ hc))
      rw [hbytes, encode_ascii hc, List.singleton_append]
      cases quote with
      | some q =>
        have hq := hquote q rfl
        rw [Option.map_some, tagEndAt, tagEnd]
        simp only [ quoteByte, ofNat_eq_iff hc hq]
        split
        · rw [hkeep, hone]
          exact ih hnone afterEquals (i + 1)
        · rw [hkeep, hone]
          exact @ih (some q) hquote false (i + 1)
      | none =>
        have hgt : UInt8.ofNat c.toNat = 0x3E ↔ c = '>' := ofNat_eq_iff hc (by decide : '>'.toNat < 128)
        have hdouble : UInt8.ofNat c.toNat = 0x22 ↔ c = '"' := ofNat_eq_iff hc (by decide : '"'.toNat < 128)
        have hsingle : UInt8.ofNat c.toNat = 0x27 ↔ c = '\'' := ofNat_eq_iff hc (by decide : '\''.toNat < 128)
        have hequals : UInt8.ofNat c.toNat = 0x3D ↔ c = '=' := ofNat_eq_iff hc (by decide : '='.toNat < 128)
        rw [Option.map_none, tagEndAt, tagEnd]
        simp only [hgt, hdouble, hsingle, hequals, isAsciiSpace_ofNat hc]
        split
        · rfl
        split
        · rw [hkeep, hone]
          exact @ih (some c) (fun q hq => Option.mem_some.mp hq ▸ hc) false (i + 1)
        split
        · rw [hkeep, hone]
          exact ih hnone true (i + 1)
        split
        · rw [hkeep, hone]
          exact ih hnone afterEquals (i + 1)
        · rw [hkeep, hone]
          exact ih hnone false (i + 1)
    · have hhigh := encode_high (Nat.not_lt.mp hc)
      have hmap : ∀ q ∈ quote.map quoteByte, q.toNat < 128 := by
        intro q hq
        obtain ⟨d, hd, rfl⟩ := Option.mem_map.mp hq
        have hd := hquote d hd
        rw [quoteByte, UInt8.toNat_ofNat', Nat.mod_eq_of_lt (by omega)]
        exact hd
      rw [hbytes, tagEndAt_high hhigh String.utf8EncodeChar_ne_nil hmap, tagEnd_high hc hquote, hkeep,
        String.length_utf8EncodeChar]
      exact ih hquote false (i + c.utf8Size)

/-! ### Where the scan goes on -/

section Positions

variable {html before rest after name : Text}

/-- Where the last of a page stands. -/
def positionOf (html left : Text) : ℕ := size html - size left

theorem positionOf_append (before left : Text) : positionOf (before ++ left) left = size before := by
  rw [positionOf, size_append, Nat.add_sub_cancel]

theorem unlettered_commentStart : ∀ d ∈ commentStart, Unlettered d := by
  simp only [commentStart, List.forall_mem_cons, Unlettered]
  exact ⟨by decide, by decide, by decide, by decide, by simp⟩

theorem unlettered_commentEnd : ∀ d ∈ commentEnd, Unlettered d := by
  simp only [commentEnd, List.forall_mem_cons, Unlettered]
  exact ⟨by decide, by decide, by decide, by simp⟩

theorem find_gt_lower (s : Text) : find (· = '>') (asciiLowercase s) = (cutAt ['>'] s).map fun cut => size cut.1 := by
  have hgt : ∀ c : Char, c.toLower = '>' ↔ c = '>' := fun c => toLower_eq_iff ⟨by decide, by decide⟩
  rw [asciiLowercase, find_map utf8Size_toLower, ← find_eq_cutAt]
  simp only [hgt]

/-- What is cut off a suffix of the page ends at what is after. -/
theorem map_cutAt {pat s : Text} (hhtml : html = before ++ s) :
    (cutAt pat s).map (fun cut => size before + size cut.1 + size pat) =
      ((cutAt pat s).map Prod.snd).map (positionOf html) := by
  cases hcut : cutAt pat s with
  | none => rfl
  | some cut =>
    have hs : s = cut.1 ++ (pat ++ cut.2) := cutAt_eq_append hcut
    have hpos : html = (before ++ cut.1 ++ pat) ++ cut.2 := by
      rw [hhtml]
      simp only [List.append_assoc]
      rw [← hs]
    simp only [Option.map_some]
    rw [hpos, positionOf_append, size_append, size_append]

theorem markupEnd_eq (hhtml : html = before ++ '<' :: rest) :
    markupEnd (asciiLowercase html) (size before) = some ((afterMarkup ('<' :: rest)).map (positionOf html)) := by
  have hmarkup : dropBytes (asciiLowercase html) (size before) = some (asciiLowercase ('<' :: rest)) :=
    hhtml ▸ dropBytes_lower before _
  rw [markupEnd, hmarkup, Option.bind_eq_bind, Option.bind_some, afterMarkup]
  simp only [prefix_lower unlettered_commentStart]
  split
  · rename_i hstarts
    have hbody : '<' :: rest = commentStart ++ ('<' :: rest).drop 4 := (List.prefix_iff_eq_append.mp hstarts).symm
    have hsize : size before + 4 = size (before ++ commentStart) := by rw [size_append]; rfl
    have hcomment : html = (before ++ commentStart) ++ ('<' :: rest).drop 4 := by
      rw [List.append_assoc, ← hbody, hhtml]
    have hdrop : dropBytes (asciiLowercase html) (size before + 4) = some (asciiLowercase (('<' :: rest).drop 4)) := by
      rw [hsize, hcomment, dropBytes_lower]
    rw [hdrop, Option.bind_some, Option.pure_def, findStr_eq, cutAt_lower unlettered_commentEnd, ← map_cutAt hcomment,
      Option.map_map, Option.map_map]
    refine congrArg some (congrArg (fun f => (cutAt commentEnd (('<' :: rest).drop 4)).map f) (funext fun cut => ?_))
    change size before + 4 + size (asciiLowercase cut.1) + 3 = size (before ++ commentStart) + size cut.1 + 3
    rw [size_lower, hsize]
  · rw [Option.pure_def, find_gt_lower, ← map_cutAt hhtml, Option.map_map]
    rfl

theorem rawEnd_eq (hhtml : html = before ++ rest) :
    rawEnd (asciiLowercase html) name (size before) = some ((afterRaw name rest).map (positionOf html)) := by
  have hrest : dropBytes (asciiLowercase html) (size before) = some (asciiLowercase rest) :=
    hhtml ▸ dropBytes_lower before _
  rw [rawEnd, hrest, Option.bind_eq_bind, Option.bind_some, findStr_eq, afterRaw]
  cases hcut : cutAt ('<' :: '/' :: name) (asciiLowercase rest) with
  | none => rfl
  | some cut =>
    have hlower : asciiLowercase rest = cut.1 ++ ('<' :: '/' :: name ++ cut.2) := cutAt_eq_append hcut
    have hclose : html = (before ++ rest.take cut.1.length) ++ rest.drop cut.1.length := by
      rw [List.append_assoc, List.take_append_drop, hhtml]
    have htake : size cut.1 = size (rest.take cut.1.length) := by
      rw [← size_lower (rest.take _), asciiLowercase, List.map_take, ← asciiLowercase, hlower, List.take_left]
    have hdrop : dropBytes (asciiLowercase html) (size before + size cut.1) =
        some (asciiLowercase (rest.drop cut.1.length)) := by
      rw [htake, ← size_append, hclose, dropBytes_lower]
    simp only [Option.map_some, hdrop, Option.bind_some, Option.pure_def, find_gt_lower]
    rw [← map_cutAt hclose, Option.map_map, htake, ← size_append]
    rfl

end Positions

/-! ### Tokens between two places -/

/-- The slices of some tokens stand between two places, in order. -/
structure Between (html : Text) (lo hi : ℕ) (tokens : List PageToken) : Prop where
  reads : ∀ t ∈ tokens.filterMap PageToken.slice, slice html t.lo t.hi = some t.text ∧ lo ≤ t.lo ∧ t.hi ≤ hi
  ordered : (tokens.filterMap PageToken.slice).Pairwise fun a b => a.hi ≤ b.lo

section Between

variable {html pre m rest : Text} {lo mid hi : ℕ} {a b : List PageToken}

theorem between_of_slice_eq_nil (h : a.filterMap PageToken.slice = []) : Between html lo hi a := by
  refine ⟨fun t ht => ?_, ?_⟩
  · rw [h] at ht
    exact absurd ht List.not_mem_nil
  · rw [h]
    exact .nil

theorem Between.append (ha : Between html lo mid a) (hb : Between html mid hi b) (hlo : lo ≤ mid) (hhi : mid ≤ hi) :
    Between html lo hi (a ++ b) := by
  refine ⟨fun t ht => ?_, ?_⟩
  · rw [List.filterMap_append, List.mem_append] at ht
    rcases ht with ht | ht
    · obtain ⟨hread, h1, h2⟩ := ha.reads t ht
      exact ⟨hread, h1, h2.trans hhi⟩
    · obtain ⟨hread, h1, h2⟩ := hb.reads t ht
      exact ⟨hread, hlo.trans h1, h2⟩
  · rw [List.filterMap_append]
    exact List.pairwise_append.mpr ⟨ha.ordered, hb.ordered, fun t ht u hu =>
      (ha.reads t ht).2.2.trans (hb.reads u hu).2.1⟩

theorem Between.mono {lo' hi' : ℕ} (h : Between html lo hi a) (hlo : lo' ≤ lo) (hhi : hi ≤ hi') :
    Between html lo' hi' a := by
  refine ⟨fun t ht => ?_, h.ordered⟩
  obtain ⟨hread, hge, hle⟩ := h.reads t ht
  exact ⟨hread, hlo.trans hge, hle.trans hhi⟩

/-- One slice. -/
theorem between_of_slice {token : PageToken} (hhtml : html = pre ++ (m ++ rest))
    (htoken : token.slice = some ⟨size pre, size pre + size m, m⟩) :
    Between html (size pre) (size pre + size m) [token] := by
  have hslices : [token].filterMap PageToken.slice = [⟨size pre, size pre + size m, m⟩] := by
    rw [List.filterMap_cons_some htoken, List.filterMap_nil]
  refine ⟨fun t ht => ?_, ?_⟩
  · rw [hslices, List.mem_singleton] at ht
    subst ht
    exact ⟨hhtml ▸ slice_append pre m rest, le_rfl, le_rfl⟩
  · rw [hslices]
    exact List.pairwise_singleton _ _

/-- The text before what a `<` opens. -/
def pushed (pos : ℕ) (pending : Text) : List PageToken :=
  if pending = [] then [] else [.text ⟨pos, pos + size pending, pending⟩]

theorem map_token_pushed (pos : ℕ) (pending : Text) : (pushed pos pending).map PageToken.token = pushText pending := by
  rw [pushed, Html.pushText]
  split <;> rfl

theorem between_pushed (hhtml : html = pre ++ (m ++ rest)) :
    Between html (size pre) (size pre + size m) (pushed (size pre) m) := by
  rw [pushed]
  split
  · exact between_of_slice_eq_nil rfl
  · exact between_of_slice hhtml rfl

theorem sliceOf_eq (hhtml : html = pre ++ (m ++ rest)) :
    sliceOf html (size pre) (size pre + size m) = some ⟨size pre, size pre + size m, m⟩ := by
  rw [sliceOf, hhtml, slice_append, Option.map_some]

theorem Scan.pushText_eq {s : Scan} (hhtml : html = pre ++ (m ++ rest)) (hfrom : s.textFrom = size pre) :
    s.pushText html (size pre + size m) = some (s.tokens ++ pushed (size pre) m) := by
  rw [Scan.pushText, pushed, hfrom]
  by_cases hm : m = []
  · subst hm
    rw [if_neg (by simp), if_pos rfl, List.append_nil]
  · have hpos := size_pos hm
    rw [if_pos (by omega), if_neg hm, sliceOf_eq hhtml, Option.map_some]

end Between

/-! ### The turns -/

section Turns

variable {html pre pending rest name attributes after : Text} {s : Scan} {closing : Bool}

/-- Where what the name of a tag is read from stands. -/
theorem named_eq (hhtml : html = pre ++ (pending ++ '<' :: rest)) (hclosing : closing = true → rest.head? = some '/') :
    ∃ before, html = before ++ (if closing then rest.tail else rest) ∧
      size before = size pre + size pending + 1 + closing.toNat := by
  cases closing with
  | false =>
    refine ⟨pre ++ (pending ++ ['<']), by simp [hhtml], ?_⟩
    have hone : '<'.utf8Size = 1 := rfl
    simp [hone, Nat.add_assoc]
  | true =>
    have hhead := hclosing rfl
    cases rest with
    | nil => cases hhead
    | cons c rest =>
      obtain rfl : c = '/' := Option.some.inj hhead
      refine ⟨pre ++ (pending ++ ['<', '/']), by simp [hhtml], ?_⟩
      have hone : '<'.utf8Size = 1 := rfl
      have hone' : '/'.utf8Size = 1 := rfl
      simp [hone, hone', Nat.add_assoc]

/-- The parts of a tag, and what the code reads of them. -/
theorem tag_parts (hhtml : html = pre ++ (pending ++ '<' :: rest)) (hclosing : closing = true → rest.head? = some '/') :
    ∃ before nm tail, html = before ++ (nm ++ tail) ∧ size before = size pre + size pending + 1 + closing.toNat ∧
      readTag closing rest = (tagEnd none false tail).map (fun (attributes, after) =>
        (asciiLowercase nm, attributes, after)) ∧
      dropBytes (asciiLowercase html) (size before) = some (asciiLowercase (nm ++ tail)) ∧
      size before + (find (fun c => !isNameChar c) (asciiLowercase (nm ++ tail))).getD
        (size (asciiLowercase html) - size before) = size before + size nm ∧
      dropBytes html (size before + size nm) = some tail ∧
      slice (asciiLowercase html) (size before) (size before + size nm) = some (asciiLowercase nm) := by
  obtain ⟨before, hbefore, hsize⟩ := named_eq hhtml hclosing
  obtain ⟨named, hnamed⟩ : ∃ named, named = if closing then rest.tail else rest := ⟨_, rfl⟩
  obtain ⟨nm, hnm⟩ : ∃ nm, nm = named.takeWhile isNameChar := ⟨_, rfl⟩
  obtain ⟨tail, htail⟩ : ∃ tail, tail = named.dropWhile isNameChar := ⟨_, rfl⟩
  have hsplit : nm ++ tail = named := by rw [hnm, htail, List.takeWhile_append_dropWhile]
  have hread : readTag closing rest = (tagEnd none false tail).map (fun (attributes, after) =>
      (asciiLowercase nm, attributes, after)) := by rw [htail, hnm, hnamed, readTag]
  rw [← hnamed, ← hsplit] at hbefore
  refine ⟨before, nm, tail, hbefore, hsize, hread, ?_, ?_, ?_, ?_⟩
  · rw [hbefore, dropBytes_lower]
  · rw [asciiLowercase, find_map utf8Size_toLower]
    simp only [isNameChar_toLower]
    rw [size_lower, hbefore, size_append, Nat.add_sub_cancel_left, getD_find, hsplit, hnm]
  · rw [← size_append, hbefore, ← List.append_assoc, dropBytes_append]
  · rw [hbefore, lower_append, lower_append, ← size_lower before, ← size_lower nm, slice_append]

theorem suffix_of_cutAt {pat t left : Text} (h : (cutAt pat t).map Prod.snd = some left) : left <:+ t := by
  obtain ⟨⟨before, after⟩, hcut, rfl⟩ := Option.map_eq_some_iff.mp h
  exact ⟨before ++ pat, by rw [cutAt_eq_append hcut, List.append_assoc]⟩

theorem suffix_afterMarkup {markup left : Text} (h : afterMarkup markup = some left) : left <:+ markup := by
  rw [afterMarkup] at h
  split at h
  · exact (suffix_of_cutAt h).trans (List.drop_suffix 4 markup)
  · exact suffix_of_cutAt h

theorem suffix_afterRaw {left : Text} (h : afterRaw name rest = some left) : left <:+ rest := by
  rw [afterRaw] at h
  split at h
  · exact (suffix_of_cutAt h).trans (List.drop_suffix _ rest)
  · cases h

theorem suffix_pushTag {left : Text} (h : (pushTag closing name attributes after).2 = some left) : left <:+ after := by
  rw [pushTag] at h
  split at h
  · exact Option.some.inj h ▸ List.suffix_refl _
  · split at h
    · exact suffix_afterRaw h
    · exact Option.some.inj h ▸ List.suffix_refl _

/-- The slice of a start tag's attributes. -/
theorem between_attributes {before tail : Text} (hhtml : html = before ++ (attributes ++ tail)) :
    Between html (size before) (size before + size attributes)
      [.start name ⟨size before, size before + size (attributes.rdropWhile (· = '/')),
        attributes.rdropWhile (· = '/')⟩] := by
  obtain ⟨slashes, hslashes⟩ := List.rdropWhile_prefix (fun c : Char => decide (c = '/')) attributes
  have hparts : html = before ++ (attributes.rdropWhile (· = '/') ++ (slashes ++ tail)) := by
    rw [hhtml, ← List.append_assoc (attributes.rdropWhile _), hslashes]
  have hsize : size (attributes.rdropWhile (· = '/')) ≤ size attributes := by
    conv_rhs => rw [← hslashes]
    rw [size_append]
    exact Nat.le_add_right _ _
  exact (between_of_slice hparts rfl).mono le_rfl (Nat.add_le_add_left hsize _)

/-- A tag that never closes: what is left is text. -/
theorem Scan.tagTurn_none (hhtml : html = pre ++ (pending ++ '<' :: rest)) (hfrom : s.textFrom = size pre)
    (hclosing : closing = true → rest.head? = some '/') (hread : readTag closing rest = none) :
    s.tagTurn html (asciiLowercase html) closing (size pre + size pending) =
      some (.done (s.tokens ++ [.text ⟨size pre, size html, pending ++ '<' :: rest⟩])) := by
  obtain ⟨before, nm, tail, -, hsize, hreads, hdrop, hend, htail, -⟩ := tag_parts hhtml hclosing
  have hnone : tagEnd none false tail = none := by
    rw [hread] at hreads
    exact Option.map_eq_none_iff.mp hreads.symm
  have hat : tagEndAt none false 0 (bytes tail) = none := by
    have hbytes := @tagEndAt_bytes tail none (by simp) false 0
    rw [hnone] at hbytes
    exact hbytes
  have hslice : sliceOf html (size pre) (size html) = some ⟨size pre, size html, pending ++ '<' :: rest⟩ := by
    have hpage : html = pre ++ ((pending ++ '<' :: rest) ++ []) := by rw [List.append_nil, hhtml]
    have hlast := sliceOf_eq hpage
    rwa [← size_append, ← hhtml] at hlast
  rw [Scan.tagTurn, ← hsize, hdrop, Option.bind_eq_bind, Option.bind_some, hend]
  dsimp only
  rw [htail, Option.bind_some, hat]
  dsimp only
  rw [hfrom, hslice]
  rfl

/-- Where a turn leads: it breaks, or goes on with what is left of the page. -/
def turnOf (html : Text) (tokens : List PageToken) : Option Text → Turn Scan (List PageToken)
  | none => .done tokens
  | some left => .again ⟨tokens, positionOf html left, positionOf html left⟩

theorem Scan.tagTurn_some (hhtml : html = pre ++ (pending ++ '<' :: rest)) (hfrom : s.textFrom = size pre)
    (hclosing : closing = true → rest.head? = some '/')
    (hread : readTag closing rest = some (name, attributes, after)) :
    ∃ added front, added.map PageToken.token = (pushTag closing name attributes after).1 ∧ html = front ++ after ∧
      size pre + size pending < size front ∧ Between html (size pre + size pending) (size front) added ∧
      s.tagTurn html (asciiLowercase html) closing (size pre + size pending) =
        some (turnOf html (s.tokens ++ pushed (size pre) pending ++ added)
          (pushTag closing name attributes after).2) := by
  obtain ⟨before, nm, tail, hbefore, hsize, hreads, hdrop, hend, htail, hname⟩ := tag_parts hhtml hclosing
  rw [hread] at hreads
  obtain ⟨⟨attributes', after'⟩, htag, hcut⟩ := Option.map_eq_some_iff.mp hreads.symm
  obtain ⟨rfl, hcut'⟩ := Prod.mk.inj hcut
  obtain ⟨rfl, rfl⟩ := Prod.mk.inj hcut'
  have hat : tagEndAt none false 0 (bytes tail) = some (size attributes') := by
    have hbytes := @tagEndAt_bytes tail none (by simp) false 0
    rw [htag, Option.map_some, Nat.zero_add] at hbytes
    exact hbytes
  have hparts := tagEnd_eq_append htag
  have hfront : html = (before ++ nm ++ attributes' ++ ['>']) ++ after' := by
    rw [hbefore, hparts]
    simp only [List.append_assoc, List.cons_append, List.nil_append]
  have hone : '>'.utf8Size = 1 := rfl
  have hgt : size before + size nm + size attributes' + 1 = size (before ++ nm ++ attributes' ++ ['>']) := by
    simp only [size_append, size_cons, size_nil, hone]
  have hpos : size before + size nm + size attributes' + 1 = positionOf html after' := by
    rw [hgt, hfront, positionOf_append]
  have hpush : s.pushText html (size pre + size pending) = some (s.tokens ++ pushed (size pre) pending) :=
    Scan.pushText_eq hhtml hfrom
  rw [Scan.tagTurn, ← hsize, hdrop, Option.bind_eq_bind, Option.bind_some, hend]
  dsimp only
  rw [htail, Option.bind_some, hat]
  dsimp only
  rw [hpush, Option.bind_eq_bind, Option.bind_some, hname, Option.bind_some, pushTag]
  cases closing with
  | true =>
    simp only [if_true]
    refine ⟨if asciiLowercase nm = [] then [] else [.endTag (asciiLowercase nm)], _, ?_, hfront, by omega,
      between_of_slice_eq_nil ?_, ?_⟩
    · split <;> rfl
    · split <;> rfl
    · rw [turnOf, ← hpos, Option.pure_def]
      split
      · rw [List.append_nil]
      · rfl
  | false =>
    simp only [Bool.false_eq_true, if_false]
    by_cases hraw : asciiLowercase nm = script ∨ asciiLowercase nm = style
    · rw [if_pos hraw, if_pos hraw, hgt, rawEnd_eq hfront, Option.bind_eq_bind, Option.bind_some]
      refine ⟨[], _, rfl, hfront, by omega, between_of_slice_eq_nil rfl, ?_⟩
      cases hafter : afterRaw (asciiLowercase nm) after' with
      | none => simp [turnOf]
      | some left => simp [turnOf]
    · have hattributes : html = (before ++ nm) ++ (attributes' ++ ('>' :: after')) := by
        rw [hbefore, hparts, List.append_assoc]
      have hslice : slice html (size before + size nm) (size before + size nm + size attributes') =
          some attributes' := by
        have hread := slice_append (before ++ nm) attributes' ('>' :: after')
        rwa [← hattributes, size_append] at hread
      have hbetween := @between_attributes html (asciiLowercase nm) attributes' (before ++ nm) ('>' :: after') hattributes
      rw [size_append] at hbetween
      rw [if_neg hraw, if_neg hraw, hslice, Option.bind_some]
      refine ⟨_, _, ?_, hfront, by omega, hbetween.mono (by omega) (by omega), ?_⟩
      · rfl
      · rw [turnOf, ← hpos, Option.pure_def]

/-- The scan so far: the text under way and what is left are the end of the page, and the tokens are those before. -/
structure Scan.At (html : Text) (s : Scan) (pre pending rest : Text) : Prop where
  page : html = pre ++ (pending ++ rest)
  textFrom : s.textFrom = size pre
  start : s.start = size pre + size pending
  tokens : s.tokens.map PageToken.token ++ tokenizeFrom pending rest = tokenize html
  between : Between html 0 (size pre) s.tokens

/-- The tokens are those of the page, where they stand in it. -/
structure Tokenized (html : Text) (out : List PageToken) : Prop where
  tokens : out.map PageToken.token = tokenize html
  placed : Placed html out

/-- What a turn from `s` may come to. -/
def Turned (html : Text) (s : Scan) : Turn Scan (List PageToken) → Prop
  | .again s' => (∃ pre pending rest, s'.At html pre pending rest) ∧ s.start < s'.start
  | .done tokens => Tokenized html tokens

theorem tokenized_of_between {tokens : List PageToken} {hi : ℕ} (hbetween : Between html 0 hi tokens)
    (htokens : tokens.map PageToken.token = tokenize html) : Tokenized html tokens :=
  ⟨htokens, fun t ht => (hbetween.reads t ht).1, hbetween.ordered⟩

theorem tokenizeFrom_scanned {tokens : List Token} {o : Option Text} (h : scanMarkup pending rest = some (tokens, o)) :
    tokenizeFrom pending ('<' :: rest) = tokens ++ o.elim [] (tokenizeFrom []) := by
  cases o with
  | some left => exact tokenizeFrom_scan h
  | none =>
    rw [tokenizeFrom, if_neg (by simp)]
    split
    · rename_i hscan
      rw [h] at hscan
      cases hscan
    · rename_i hscan
      rw [h] at hscan
      obtain ⟨rfl, -⟩ := Prod.mk.inj (Option.some.inj hscan)
      exact (List.append_nil _).symm
    · rename_i hscan
      rw [h] at hscan
      cases hscan

theorem tokenizeFrom_unscanned (h : scanMarkup pending rest = none) :
    tokenizeFrom pending ('<' :: rest) = tokenizeFrom (pending ++ ['<']) rest := by
  rw [tokenizeFrom, if_neg (by simp)]
  split
  · rfl
  · rename_i hscan
    rw [h] at hscan
    cases hscan
  · rename_i hscan
    rw [h] at hscan
    cases hscan

/-- A turn that reads what a `<` opens. -/
theorem turned_markup {new : List PageToken} {o : Option Text} (hi : ℕ)
    (hat : s.At html pre pending ('<' :: rest)) (hscan : scanMarkup pending rest = some (new.map PageToken.token, o))
    (hnew : Between html (size pre) hi new) (hpre : size pre ≤ hi)
    (hleft : ∀ left ∈ o, ∃ front, html = front ++ left ∧ hi ≤ size front ∧ size pre + size pending < size front) :
    Turned html s (turnOf html (s.tokens ++ new) o) := by
  have hbetween := hat.between.append hnew (Nat.zero_le _) hpre
  have htokens := hat.tokens
  rw [tokenizeFrom_scanned hscan, ← List.append_assoc, ← List.map_append] at htokens
  cases o with
  | none => exact tokenized_of_between hbetween ((List.append_nil _).symm.trans htokens)
  | some left =>
    obtain ⟨front, hfront, hhi, hlt⟩ := hleft left rfl
    have hpos : positionOf html left = size front := by rw [hfront, positionOf_append]
    refine ⟨⟨front, [], left, hfront, hpos, hpos, htokens, hbetween.mono le_rfl hhi⟩, ?_⟩
    rw [hat.start]
    exact hlt.trans_eq hpos.symm

/-- Nothing opens any more: what is left is text. -/
theorem turned_text (hat : s.At html pre pending rest) (hrest : '<' ∉ rest) :
    Tokenized html (s.tokens ++ pushed (size pre) (pending ++ rest)) := by
  have hpage : html = pre ++ ((pending ++ rest) ++ []) := by rw [List.append_nil, hat.page]
  have hbetween := hat.between.append (between_pushed hpage) (Nat.zero_le _) (Nat.le_add_right _ _)
  refine tokenized_of_between hbetween ?_
  have hall := tokenizeFrom_text pending [] hrest
  rw [List.append_nil, tokenizeFrom] at hall
  rw [List.map_append, map_token_pushed, ← hall, hat.tokens]

/-! The byte after a `<` says what it opens. -/

theorem any_byte {d : Char} (hd : d.toNat < 128) (t : Text) :
    (bytes t)[0]?.any (· == UInt8.ofNat d.toNat) = decide (t.head? = some d) := by
  have hfirst := @any_first_byte (fun c => decide (c = d)) (· == UInt8.ofNat d.toNat)
    (fun c hc => by rw [Bool.eq_iff_iff, beq_iff_eq, decide_eq_true_iff, ofNat_eq_iff hc hd])
    (fun b hb => by
      rw [beq_eq_false_iff_ne]
      rintro rfl
      rw [UInt8.toNat_ofNat', Nat.mod_eq_of_lt (by omega)] at hb
      omega)
    (fun c hc => by
      rw [decide_eq_false_iff_not]
      rintro rfl
      omega) t
  rw [hfirst]
  cases t with
  | nil => rfl
  | cons c t => simp

theorem any_letter (t : Text) : (bytes t)[0]?.any isAsciiLetter = t.head?.any Char.isAlpha := by
  have halpha : ∀ c : Char, c.isAlpha = true ↔
      (65 ≤ c.toNat ∧ c.toNat ≤ 90) ∨ (97 ≤ c.toNat ∧ c.toNat ≤ 122) := by
    intro c
    delta Char.isAlpha Char.isUpper Char.isLower
    simp only [Bool.or_eq_true, Bool.and_eq_true, decide_eq_true_eq, UInt32.le_iff_toNat_le, ge_iff_le]
    exact Iff.rfl
  have hletter : ∀ b : UInt8, isAsciiLetter b = true ↔
      (97 ≤ b.toNat ∧ b.toNat ≤ 122) ∨ (65 ≤ b.toNat ∧ b.toNat ≤ 90) := by
    intro b
    simp only [isAsciiLetter, Bool.or_eq_true, Bool.and_eq_true, decide_eq_true_eq, UInt8.le_iff_toNat_le]
    exact Iff.rfl
  refine any_first_byte (fun c hc => ?_) (fun b hb => ?_) (fun c hc => ?_) t
  · rw [Bool.eq_iff_iff, halpha, hletter, UInt8.toNat_ofNat', Nat.mod_eq_of_lt (by omega)]
    exact or_comm
  · rw [Bool.eq_false_iff, Ne, hletter]
    omega
  · rw [Bool.eq_false_iff, Ne, halpha]
    omega

theorem Scan.At.dropBytes_start (hat : s.At html pre pending rest) : dropBytes html s.start = some rest := by
  rw [hat.start, ← size_append, hat.page, ← List.append_assoc, dropBytes_append]

theorem scanTurn_text (hat : s.At html pre pending rest) (hrest : '<' ∉ rest) :
    scanTurn html s = some (.done (s.tokens ++ pushed (size pre) (pending ++ rest))) := by
  have hfind : find (fun c => decide (c = '<')) rest = none :=
    find_eq_none.mpr fun c hc => decide_eq_false fun heq => hrest (heq ▸ hc)
  have hpage : html = pre ++ ((pending ++ rest) ++ []) := by rw [List.append_nil, hat.page]
  have hsize : size html = size pre + size (pending ++ rest) := by rw [hat.page, size_append]
  have hslice := sliceOf_eq hpage
  rw [← hsize] at hslice
  rw [scanTurn, hat.dropBytes_start, Option.bind_eq_bind, Option.bind_some, hfind]
  dsimp only
  rw [hat.textFrom, hslice, pushed, ← hsize]
  by_cases hnil : pending ++ rest = []
  · rw [hnil, size_nil] at hsize
    rw [if_neg (by omega), if_pos hnil, List.append_nil]
    rfl
  · have hpos := size_pos hnil
    rw [if_pos (by omega), if_neg hnil]
    rfl

theorem Scan.At.mono {start : ℕ} {turn : Turn Scan (List PageToken)} (hle : s.start ≤ start)
    (h : Turned html { s with start := start } turn) : Turned html s turn := by
  cases turn with
  | done out => exact h
  | again s' => exact ⟨h.1, hle.trans_lt h.2⟩

/-- A comment or a declaration. -/
theorem turned_bang (hat : s.At html pre pending ('<' :: rest)) (hbang : rest.head? = some '!') :
    Turned html s (turnOf html (s.tokens ++ pushed (size pre) pending) (afterMarkup ('<' :: rest))) := by
  refine turned_markup _ hat ?_ (between_pushed hat.page) (Nat.le_add_right _ _) fun left hleft => ?_
  · rw [scanMarkup, if_pos hbang, map_token_pushed]
  · obtain ⟨front, hfront⟩ := suffix_afterMarkup hleft
    have hlength := afterMarkup_length hleft
    have hne : front ≠ [] := by
      rintro rfl
      rw [← hfront, List.nil_append] at hlength
      have hcons := congrArg List.length hfront
      rw [List.nil_append, List.length_cons] at hcons
      omega
    have hsize := size_pos hne
    refine ⟨pre ++ pending ++ front, ?_, ?_, ?_⟩
    · rw [List.append_assoc, hfront, List.append_assoc, hat.page]
    · rw [size_append, size_append]
      omega
    · rw [size_append, size_append]
      omega

/-- A tag. -/
theorem tagTurn_turned (hat : s.At html pre pending ('<' :: rest)) (hbang : rest.head? ≠ some '!')
    (htag : rest.head? = some '/' ∨ rest.head?.any Char.isAlpha) :
    ∃ turn, s.tagTurn html (asciiLowercase html) (rest.head? = some '/') (size pre + size pending) = some turn ∧
      Turned html s turn := by
  have hclosing : decide (rest.head? = some '/') = true → rest.head? = some '/' := of_decide_eq_true
  cases hread : readTag (rest.head? = some '/') rest with
  | none =>
    have hpage : html = pre ++ ((pending ++ '<' :: rest) ++ []) := by rw [List.append_nil, hat.page]
    have hsize : size html = size pre + size (pending ++ '<' :: rest) := by rw [hat.page, size_append]
    refine ⟨_, Scan.tagTurn_none hat.page hat.textFrom hclosing hread, ?_⟩
    refine turned_markup (o := none) (size html) hat ?_ ?_ (by omega) (fun left hleft => by cases hleft)
    · rw [scanMarkup, if_neg hbang, if_pos htag]
      simp only [hread]
      rfl
    · rw [hsize]
      exact between_of_slice hpage rfl
  | some cut =>
    obtain ⟨name, attributes, after⟩ := cut
    obtain ⟨added, front, hadded, hfront, hlt, hbetween, hturn⟩ :=
      Scan.tagTurn_some hat.page hat.textFrom hclosing hread
    refine ⟨_, hturn, ?_⟩
    rw [List.append_assoc]
    refine turned_markup _ hat ?_ ((between_pushed hat.page).append hbetween (Nat.le_add_right _ _) hlt.le) (by omega)
      fun left hleft => ?_
    · rw [scanMarkup, if_neg hbang, if_pos htag, List.map_append, map_token_pushed, hadded]
      simp only [hread]
    · obtain ⟨skipped, rfl⟩ := suffix_pushTag hleft
      refine ⟨front ++ skipped, ?_, ?_, ?_⟩
      · rw [hfront, List.append_assoc]
      · rw [size_append]
        omega
      · rw [size_append]
        omega

/-- What a `<` opens, or the text it is. -/
theorem scanTurn_found {t : Text} (hat : s.At html pre pending (t ++ '<' :: rest)) (ht : '<' ∉ t) :
    ∃ turn, scanTurn html s = some turn ∧ Turned html s turn := by
  have hfind : find (fun c => decide (c = '<')) (t ++ '<' :: rest) = some (size t) :=
    find_eq_some.mpr ⟨t, '<', rest, rfl, fun d hd => decide_eq_false fun heq => ht (heq ▸ hd), by simp, rfl⟩
  have hpos : s.start + size t = size pre + size (pending ++ t) := by rw [hat.start, size_append, Nat.add_assoc]
  have hpage : html = pre ++ ((pending ++ t) ++ '<' :: rest) := by rw [hat.page, List.append_assoc]
  have hone : size (pre ++ (pending ++ t) ++ ['<']) = size pre + size (pending ++ t) + 1 := by
    simp only [size_append, size_cons, size_nil]
    rfl
  have hnext : (bytes html)[size pre + size (pending ++ t) + 1]? = (bytes rest)[0]? := by
    have hread := getElem?_bytes_append (pre ++ (pending ++ t) ++ ['<']) rest 0
    rw [hone] at hread
    rw [← hread, hpage]
    simp only [List.append_assoc, List.cons_append, List.nil_append]
  have htokens : s.tokens.map PageToken.token ++ tokenizeFrom (pending ++ t) ('<' :: rest) = tokenize html := by
    rw [← tokenizeFrom_text _ _ ht, hat.tokens]
  -- The scan as it stands at the `<`.
  have hopen : Scan.At html { s with start := size pre + size (pending ++ t) } pre (pending ++ t) ('<' :: rest) :=
    ⟨hpage, hat.textFrom, rfl, htokens, hat.between⟩
  have hbang : (bytes rest)[0]?.any (· == 0x21) = decide (rest.head? = some '!') := @any_byte '!' (by decide) rest
  have hslash : (bytes rest)[0]?.any (· == 0x2F) = decide (rest.head? = some '/') := @any_byte '/' (by decide) rest
  rw [scanTurn, hat.dropBytes_start, Option.bind_eq_bind, Option.bind_some, hfind]
  dsimp only
  rw [hpos, hnext, hbang, hslash, any_letter]
  by_cases hmarkup : rest.head? = some '!'
  · rw [if_pos (decide_eq_true hmarkup), Scan.pushText_eq hpage hat.textFrom, Option.bind_eq_bind, Option.bind_some,
      ← size_append, markupEnd_eq (hpage.trans (List.append_assoc _ _ _).symm), Option.bind_eq_bind, Option.bind_some]
    refine ⟨_, ?_, Scan.At.mono (by omega) (turned_bang hopen hmarkup)⟩
    cases afterMarkup ('<' :: rest) with
    | none => rfl
    | some left => rfl
  · rw [if_neg (by simpa using hmarkup)]
    by_cases htag : rest.head? = some '/' ∨ rest.head?.any Char.isAlpha
    · rw [if_pos (by simpa using htag)]
      obtain ⟨turn, hturn, hturned⟩ := tagTurn_turned hopen hmarkup htag
      exact ⟨turn, hturn, Scan.At.mono (by omega) hturned⟩
    · rw [if_neg (by simpa using htag)]
      have hscan : scanMarkup (pending ++ t) rest = none := by rw [scanMarkup, if_neg hmarkup, if_neg htag]
      refine ⟨_, rfl, ⟨pre, pending ++ t ++ ['<'], rest, ?_, hat.textFrom, ?_, ?_, hat.between⟩, ?_⟩
      · rw [hpage, List.append_assoc (pending ++ t)]
        rfl
      · rw [← hone, ← size_append, List.append_assoc]
      · rw [← tokenizeFrom_unscanned hscan, htokens]
      · change s.start < size pre + size (pending ++ t) + 1
        omega

/-- Every page is tokenized: no slice panics and the loop ends, with the tokens where they stand. -/
theorem tokenizeSlices_tokenized (html : Text) : ∃ tokens, tokenizeSlices html = some tokens ∧ Tokenized html tokens := by
  have hle : ∀ {s : Scan} {pre pending rest}, s.At html pre pending rest → s.start ≤ size html := by
    intro s pre pending rest hat
    rw [hat.start, hat.page, size_append, size_append]
    omega
  refine run_total (I := fun s => ∃ pre pending rest, s.At html pre pending rest) (V := fun s => size html - s.start)
    ?_ ⟨[], [], html, rfl, rfl, rfl, rfl, between_of_slice_eq_nil rfl⟩ (Nat.lt_succ_of_le (Nat.sub_le _ _))
  rintro s ⟨pre, pending, rest, hat⟩
  obtain ⟨turn, hturn, hturned⟩ : ∃ turn, scanTurn html s = some turn ∧ Turned html s turn := by
    by_cases hopen : '<' ∈ rest
    · obtain ⟨t, rest', rfl, ht⟩ := List.eq_append_cons_of_mem hopen
      exact scanTurn_found hat ht
    · exact ⟨_, scanTurn_text hat hopen, turned_text hat hopen⟩
  cases turn with
  | done out => exact .inr ⟨out, hturn, hturned⟩
  | again s' =>
    obtain ⟨⟨pre', pending', rest', hat'⟩, hlt⟩ := hturned
    have hend := hle hat'
    refine .inl ⟨s', hturn, ⟨pre', pending', rest', hat'⟩, ?_⟩
    omega

end Turns

end Home.Recipes.Html
