import ManageOurHome.Recipes.Extents
import ManageOurHome.Recipes.KeptText

/-! @src apps/api/src/recipes/html.rs | layer:model | family:text of a page

    What is read of a range of tokens: its text, its lines less its headings, and the items of its lists that hold no
    other item. The text of the range is kept exactly if nothing in it reads as a tag once its own tags are dropped,
    and no entity runs over from one text into the next.

        <h2>un</h2>deux<br>trois      text  un deux trois     lines  deux · trois
        <p>1 <<b>x></b>               text  1 -/

namespace Home.Recipes.Html

/-! ### Lines -/

/-- The level of a heading. -/
def headingLevel : Text → Option ℕ
  | ['h', level] => if '1' ≤ level ∧ level ≤ '6' then some (level.toNat - '0'.toNat) else none
  | _ => none

def Token.isHeading : Token → Bool
  | .start name _ => (headingLevel name).isSome
  | _ => false

/-- What a token adds to the lines of its element. -/
def rawLine : Token → Text
  | .text t => t
  | .start name _ | .endTag name => if isBlock name then ['\n'] else []

/-- The loop of `lines_in`: a heading is skipped, up to the token that ends it. -/
def Document.rawLines (d : Document) (hi pos : ℕ) : Text :=
  if pos < hi then
    match d.tokens[pos]? with
    | none => []
    | some token =>
      if token.isHeading then '\n' :: d.rawLines hi (max (d.endOf pos) pos + 1)
      else rawLine token ++ d.rawLines hi (pos + 1)
  else []
  termination_by hi - pos

/-- The non-blank lines of a range, its headings left out. -/
def Document.linesIn (d : Document) (range : ℕ × ℕ) : List Text :=
  ((linesFrom [] (d.rawLines range.2 range.1)).map plainText).filter (· ≠ [])

/-- The non-blank lines of an element. -/
def Document.lines (d : Document) (start : ℕ) : List Text := d.linesIn (d.inside start)

/-! ### Items -/

/-- An open `li`: where it ends, its text so far, and whether it holds another. -/
structure OpenItem where
  finish : ℕ
  raw : Text
  parent : Bool

/-- `close`, at `pos` (none for `usize::MAX`): the open items that end there, innermost first. -/
def closeItems (pos : Option ℕ) : List OpenItem → List Text → List OpenItem × List Text
  | [], items => ([], items)
  | item :: below, items =>
    if pos.all (item.finish ≤ ·) then
      closeItems pos below
        (if item.parent then items
        else if plainText item.raw = [] then items
        else items ++ [plainText item.raw])
    else (item :: below, items)

/-- Something of the innermost open item. -/
def onInnermost (f : OpenItem → OpenItem) : List OpenItem → List OpenItem
  | [] => []
  | item :: below => f item :: below

def Token.isItem : Token → Bool
  | .start name _ => name = li
  | _ => false

/-- The loop of `leaf_items_in`. -/
def Document.itemStep (d : Document) (state : List OpenItem × List Text) (pos : ℕ) : List OpenItem × List Text :=
  let (opened, items) := closeItems (some pos) state.1 state.2
  match d.tokens[pos]? with
  | none => (opened, items)
  | some token =>
    if token.isItem then
      (⟨d.endOf pos, [], false⟩ :: onInnermost (fun item => { item with parent := true }) opened, items)
    else (onInnermost (fun item => { item with raw := item.raw ++ rawText token }) opened, items)

/-- The text of every `li` of a range that holds no other. -/
def Document.leafItemsIn (d : Document) (range : ℕ × ℕ) : List Text :=
  let (opened, items) := (List.range' range.1 (range.2 - range.1)).foldl d.itemStep ([], [])
  (closeItems none opened items).2

/-- The text of every `li` of an element that holds no other. -/
def Document.leafItems (d : Document) (start : ℕ) : List Text := d.leafItemsIn (d.inside start)

/-! ### What is to be read -/

/-- The text of a token, its entities not decoded. -/
def Token.written : Token → Text
  | .text t => t
  | _ => []

def Document.writtenAt (d : Document) (i : ℕ) : Text := d.tokens[i]?.elim [] Token.written

def Document.headingAt (d : Document) (s : ℕ) : Bool := d.tokens[s]?.any Token.isHeading

def Document.itemAt (d : Document) (s : ℕ) : Bool := d.tokens[s]?.any Token.isItem

/-- A token inside of a heading that starts at `lo` or later. -/
def Document.inHeading (d : Document) (lo i : ℕ) : Bool :=
  (List.range' lo (i - lo)).any fun s => d.headingAt s && decide (i < d.endOf s)

/-- An `li` that holds no other before `hi`. -/
def Document.leafAt (d : Document) (hi s : ℕ) : Bool :=
  d.itemAt s && !(List.range' (s + 1) (min (d.endOf s) hi - (s + 1))).any d.itemAt

/-- The tokens of a range. -/
def Document.tokensIn (d : Document) (range : ℕ × ℕ) : List Token := (d.tokens.take range.2).drop range.1

/-- Nothing but tags and whitespace is dropped of a range. -/
structure Document.Keeps (d : Document) (range : ℕ × ℕ) : Prop where
  /-- Its text is that of its texts, their entities decoded. -/
  text : visible (d.textIn range) = (d.tokensIn range).flatMap fun token => visible (decodeEntities token.written)
  /-- Its lines are that of its texts outside of its headings. -/
  lines : visible (d.linesIn range).flatten =
    ((List.range' range.1 (range.2 - range.1)).filter fun i => !d.inHeading range.1 i).flatMap fun i =>
      visible (decodeEntities (d.writtenAt i))
  /-- Its items are those of its `li` that hold no other, in page order, less the empty ones. -/
  items : d.leafItemsIn range =
    (((List.range' range.1 (range.2 - range.1)).filter (d.leafAt range.2)).map fun s =>
      d.textIn (s + 1, min (d.endOf s) range.2)).filter (· ≠ [])

/-! ### Texts -/

theorem decodeEntities_nil : decodeEntities [] = [] := by rw [decodeEntities]

theorem visible_rawText (token : Token) :
    visible (decodeEntities (rawText token)) = visible (decodeEntities token.written) := by
  have hspace : visible (decodeEntities [' ']) = visible (decodeEntities []) := by
    rw [decodeEntities_cons (by decide), visible_cons_of_whitespace (by decide)]
  cases token with
  | text t => rfl
  | start name attributes =>
    change visible (decodeEntities (if isBlock name then [' '] else [])) = visible (decodeEntities [])
    split
    · exact hspace
    · rfl
  | endTag name =>
    change visible (decodeEntities (if isBlock name then [' '] else [])) = visible (decodeEntities [])
    split
    · exact hspace
    · rfl

theorem Document.visible_textIn (d : Document) (range : ℕ × ℕ) :
    visible (d.textIn range) = (d.tokensIn range).flatMap (fun token => visible (decodeEntities token.written)) ↔
      ¬ ReadsTag ((d.tokensIn range).flatMap rawText) ∧ ¬ AnyRunsOver ((d.tokensIn range).map rawText) := by
  have hkept := visible_plainText_flatten ((d.tokensIn range).map rawText)
  rw [List.flatMap_map] at hkept
  simp only [visible_rawText] at hkept
  exact hkept

/-! ### Lines -/

/-- Something reads as a tag on one line. -/
def LineReadsTag (s : Text) : Prop :=
  ∃ before after, s = before ++ '<' :: after ∧ opensTag after ∧ '>' ∈ after.takeWhile (· ≠ '\n')

section Lines

variable {x y z s line : Text}

theorem LineReadsTag.append_left (h : LineReadsTag s) (x : Text) : LineReadsTag (x ++ s) := by
  obtain ⟨before, after, rfl, hafter⟩ := h
  exact ⟨x ++ before, after, by rw [List.append_assoc], hafter⟩

/-- What reads as a tag on a line does on the line of the text. -/
theorem lineReadsTag_of_mem {l : Text} (hline : '\n' ∉ line) (hl : l ∈ linesFrom line s) (htag : ReadsTag l) :
    LineReadsTag (line ++ s) := by
  -- A whole line, and what follows it.
  have hwhole : ∀ {line rest : Text}, '\n' ∉ line → ReadsTag line → (∀ c ∈ rest.head?, c = '\n') →
      LineReadsTag (line ++ rest) := by
    intro line rest hline htag hrest
    obtain ⟨before, after, rfl, hopens, hin⟩ := htag
    have hafter : ∀ c ∈ after, (decide (c ≠ '\n')) = true := by
      intro c hc
      rw [decide_eq_true_iff]
      rintro rfl
      exact hline (List.mem_append_right _ (List.mem_cons_of_mem _ hc))
    refine ⟨before, after ++ rest, by rw [List.append_assoc]; rfl, ?_, ?_⟩
    · rw [opensTag_append (List.ne_nil_of_mem hin)]
      exact hopens
    · rw [List.takeWhile_append_of_pos hafter]
      exact List.mem_append_left _ hin
  induction s generalizing line with
  | nil =>
    rw [linesFrom] at hl
    split at hl
    · cases hl
    · obtain rfl := List.mem_singleton.mp hl
      exact hwhole hline htag (by simp)
  | cons c s ih =>
    rw [linesFrom] at hl
    split at hl
    · rename_i hc
      subst hc
      rcases List.mem_cons.mp hl with rfl | hl
      · refine hwhole hline ?_ (by simp)
        split at htag
        · rename_i hlast
          have hconcat := List.dropLast_append_getLast? _ hlast
          rw [← hconcat]
          exact htag.append_right _
        · exact htag
      · exact ((ih List.not_mem_nil hl).append_left ['\n']).append_left line
    · rename_i hc
      have hnew : '\n' ∉ line ++ [c] := by
        rw [List.mem_append, List.mem_singleton, not_or]
        exact ⟨hline, Ne.symm hc⟩
      have hread := ih hnew hl
      rwa [List.append_assoc] at hread

theorem decodeEntities_newline (x y : Text) :
    decodeEntities (x ++ '\n' :: y) = decodeEntities x ++ '\n' :: decodeEntities y := by
  rw [decodeEntities_append_of_not (not_runsOver_right (by decide) (by decide)), decodeEntities_cons (by decide)]

/-- The lines of a text read as it does. -/
theorem visible_linesFrom (line s : Text) :
    (linesFrom line s).flatMap (fun l => visible (decodeEntities l)) = visible (decodeEntities (line ++ s)) := by
  induction s generalizing line with
  | nil =>
    rw [linesFrom, List.append_nil]
    split
    · rename_i hnil
      rw [hnil, decodeEntities_nil]
      rfl
    · rw [List.flatMap_singleton]
  | cons c s ih =>
    rw [linesFrom]
    split
    · rename_i hc
      subst hc
      have hreturn : visible (decodeEntities (if line.getLast? = some '\r' then line.dropLast else line)) =
          visible (decodeEntities line) := by
        split
        · rename_i hlast
          conv_rhs => rw [← List.dropLast_append_getLast? _ hlast]
          rw [decodeEntities_append_of_not (not_runsOver_right (by decide) (by decide)),
            decodeEntities_cons (by decide), decodeEntities_nil, visible_append]
          exact (List.append_nil _).symm
        · rfl
      rw [List.flatMap_cons, hreturn, ih, List.nil_append, decodeEntities_newline, visible_append,
        visible_cons_of_whitespace (by decide)]
    · rw [ih, List.append_assoc]
      rfl

/-- Non-blank lines keep what the text reads as, if none reads as a tag. -/
theorem visible_lines (h : ¬ LineReadsTag s) :
    visible (((linesFrom [] s).map plainText).filter (· ≠ [])).flatten = visible (decodeEntities s) := by
  have hlines : ∀ l ∈ linesFrom [] s, visible (plainText l) = visible (decodeEntities l) := fun l hl => by
    rw [visible_plainText, stripTags_of_not fun htag => h (lineReadsTag_of_mem List.not_mem_nil hl htag)]
  rw [List.flatten_filter_ne_nil, ← List.flatMap_id, visible_flatMap, List.flatMap_map]
  have hall := visible_linesFrom [] s
  rw [List.nil_append] at hall
  rw [← hall]
  exact List.flatMap_congr hlines

end Lines

/-! ### The walk over the lines -/

section Walk

variable {d : Document} {lo hi pos : ℕ} {x y y' z z' : Text}

theorem Document.tokensIn_cons (hpos : pos < hi) (hhi : hi ≤ d.tokens.length) :
    d.tokensIn (pos, hi) = d.tokens[pos] :: d.tokensIn (pos + 1, hi) := by
  have hlength : pos < (d.tokens.take hi).length := by
    rw [List.length_take_of_le hhi]
    exact hpos
  rw [tokensIn, tokensIn, List.drop_eq_getElem_cons hlength, List.getElem_take]

theorem Document.tokensIn_suffix (hi : ℕ) (hle : lo ≤ pos) : d.tokensIn (pos, hi) <:+ d.tokensIn (lo, hi) := by
  obtain ⟨n, rfl⟩ := Nat.exists_eq_add_of_le hle
  have hdrop : d.tokensIn (lo + n, hi) = (d.tokensIn (lo, hi)).drop n := by
    rw [tokensIn, tokensIn, List.drop_drop]
  rw [hdrop]
  exact List.drop_suffix _ _

theorem Document.rawLines_end (h : hi ≤ pos) : d.rawLines hi pos = [] := by
  rw [rawLines, if_neg (Nat.not_lt.mpr h)]

theorem Document.rawLines_heading (hpos : pos < hi) (hhi : hi ≤ d.tokens.length)
    (hheading : d.tokens[pos].isHeading = true) :
    d.rawLines hi pos = '\n' :: d.rawLines hi (max (d.endOf pos) pos + 1) := by
  rw [rawLines, if_pos hpos, List.getElem?_eq_getElem (hpos.trans_le hhi)]
  exact if_pos hheading

theorem Document.rawLines_token (hpos : pos < hi) (hhi : hi ≤ d.tokens.length)
    (hheading : d.tokens[pos].isHeading = false) :
    d.rawLines hi pos = rawLine d.tokens[pos] ++ d.rawLines hi (pos + 1) := by
  rw [rawLines, if_pos hpos, List.getElem?_eq_getElem (hpos.trans_le hhi)]
  exact if_neg (by simp [hheading])

/-- The walk goes past a heading at once, and past any other token. -/
theorem Document.walk_induction (d : Document) (hi : ℕ) (hhi : hi ≤ d.tokens.length) {P : ℕ → Prop}
    (hend : ∀ pos, hi ≤ pos → P pos)
    (hheading : ∀ pos, pos < hi → ∀ hlt : pos < d.tokens.length, d.tokens[pos].isHeading = true →
      P (max (d.endOf pos) pos + 1) → P pos)
    (htoken : ∀ pos, pos < hi → ∀ hlt : pos < d.tokens.length, d.tokens[pos].isHeading = false →
      P (pos + 1) → P pos)
    (pos : ℕ) : P pos := by
  induction hn : hi - pos using Nat.strong_induction_on generalizing pos with
  | _ n ih =>
    by_cases hpos : pos < hi
    · have hlt : pos < d.tokens.length := hpos.trans_le hhi
      cases hkind : d.tokens[pos].isHeading with
      | true => exact hheading pos hpos hlt hkind (ih _ (by omega) _ rfl)
      | false => exact htoken pos hpos hlt hkind (ih _ (by omega) _ rfl)
    · exact hend pos (Nat.not_lt.mp hpos)

/-- What stands on the line, before what follows. -/
theorem takeWhile_append_line (h : y.takeWhile (· ≠ '\n') <+: y') (x : Text) :
    (x ++ y).takeWhile (· ≠ '\n') <+: x ++ y' := by
  induction x with
  | nil => exact h
  | cons c x ih =>
    rw [List.cons_append, List.cons_append, List.takeWhile_cons]
    split
    · exact List.cons_prefix_cons.mpr ⟨rfl, ih⟩
    · exact List.nil_prefix

/-- What is on the first line of the lines is what the text goes on with. -/
theorem Document.takeWhile_rawLines (hhi : hi ≤ d.tokens.length) (pos : ℕ) :
    (d.rawLines hi pos).takeWhile (· ≠ '\n') <+: (d.tokensIn (pos, hi)).flatMap rawText := by
  induction pos using d.walk_induction hi hhi with
  | hend pos hpos =>
    rw [d.rawLines_end hpos]
    exact List.nil_prefix
  | hheading pos hpos hlt hheading ih =>
    rw [d.rawLines_heading hpos hhi hheading]
    exact List.nil_prefix
  | htoken pos hpos hlt hheading ih =>
    rw [d.rawLines_token hpos hhi hheading, d.tokensIn_cons hpos hhi, List.flatMap_cons]
    have hblock : ∀ block : Bool,
        ((if block then ['\n'] else []) ++ d.rawLines hi (pos + 1)).takeWhile (· ≠ '\n') <+:
        (if block then [' '] else []) ++ (d.tokensIn (pos + 1, hi)).flatMap rawText := by
      intro block
      cases block with
      | true => exact List.nil_prefix
      | false => exact ih
    cases d.tokens[pos] with
    | text t => exact takeWhile_append_line ih t
    | start name attributes => exact hblock (isBlock name)
    | endTag name => exact hblock (isBlock name)

/-- What is before a text whose first line is that of `y`. -/
theorem readsTag_of_line (hline : y.takeWhile (· ≠ '\n') <+: y') (hrest : LineReadsTag y → ReadsTag y')
    (h : LineReadsTag (x ++ y)) : ReadsTag (x ++ y') := by
  obtain ⟨before, after, hsplit, hopens, hin⟩ := h
  rcases List.append_eq_append_iff.mp hsplit with ⟨skipped, -, hy⟩ | ⟨left, hx, hleft⟩
  · exact (hrest ⟨skipped, after, hy, hopens, hin⟩).append_left x
  · cases left with
    | nil => exact (hrest ⟨[], after, hleft.symm, hopens, hin⟩).append_left x
    | cons c left =>
      obtain ⟨rfl, rfl⟩ := List.cons.inj hleft
      have hin' := (takeWhile_append_line hline left).subset hin
      have hhead : opensTag (left ++ y') = opensTag (left ++ y) := by
        cases left with
        | cons d left => rfl
        | nil =>
          cases y with
          | nil => cases hopens
          | cons d y =>
            change '>' ∈ (d :: y).takeWhile (· ≠ '\n') at hin
            rw [List.takeWhile_cons] at hin
            split at hin
            · rename_i hd
              rw [List.takeWhile_cons, if_pos hd] at hline
              obtain ⟨z, rfl⟩ := hline
              rfl
            · cases hin
      rw [hx, List.append_assoc]
      exact ⟨before, left ++ y', rfl, hhead.trans hopens, hin'⟩

theorem Document.readsTag_of_rawLines (hhi : hi ≤ d.tokens.length) (pos : ℕ) :
    LineReadsTag (d.rawLines hi pos) → ReadsTag ((d.tokensIn (pos, hi)).flatMap rawText) := by
  induction pos using d.walk_induction hi hhi with
  | hend pos hpos =>
    rw [d.rawLines_end hpos]
    rintro ⟨before, after, hnil, -⟩
    exact absurd hnil.symm (List.append_ne_nil_of_right_ne_nil before (List.cons_ne_nil _ _))
  | hheading pos hpos hlt hheading ih =>
    rw [d.rawLines_heading hpos hhi hheading]
    rintro ⟨before, after, hsplit, hopens, hin⟩
    obtain ⟨skipped, hskipped⟩ :=
      d.tokensIn_suffix hi ((le_max_right (d.endOf pos) pos).trans (Nat.le_succ _))
    rw [← hskipped, List.flatMap_append]
    refine (ih ?_).append_left _
    cases before with
    | nil => exact absurd (List.cons.inj hsplit).1 (by decide)
    | cons c before => exact ⟨before, after, (List.cons.inj hsplit).2, hopens, hin⟩
  | htoken pos hpos hlt hheading ih =>
    rw [d.rawLines_token hpos hhi hheading, d.tokensIn_cons hpos hhi, List.flatMap_cons]
    have hline := d.takeWhile_rawLines hhi (pos + 1)
    have hblock : ∀ block : Bool, LineReadsTag ((if block then ['\n'] else []) ++ d.rawLines hi (pos + 1)) →
        ReadsTag ((if block then [' '] else []) ++ (d.tokensIn (pos + 1, hi)).flatMap rawText) := by
      intro block htag
      cases block with
      | true =>
        obtain ⟨before, after, hsplit, hopens, hin⟩ := htag
        cases before with
        | nil => exact absurd (List.cons.inj hsplit).1 (by decide)
        | cons c before => exact (ih ⟨before, after, (List.cons.inj hsplit).2, hopens, hin⟩).append_left [' ']
      | false => exact ih htag
    cases d.tokens[pos] with
    | text t => exact readsTag_of_line hline ih
    | start name attributes => exact hblock (isBlock name)
    | endTag name => exact hblock (isBlock name)

/-- An entity that runs over into the lines runs over into the text. -/
theorem runsOver_of_line (hline : y.takeWhile (· ≠ '\n') <+: y') (h : RunsOver x y) : RunsOver x y' := by
  obtain ⟨before, after, hx, hnone, hsome⟩ := h
  obtain ⟨⟨c, rest⟩, hread⟩ := Option.isSome_iff_exists.mp hsome
  obtain ⟨n, rfl, hname, hsize⟩ := exists_of_decoded hnone hread
  have hchars : ∀ d ∈ n ++ [';'], (decide (d ≠ '\n')) = true := by
    intro d hd
    rw [decide_eq_true_iff]
    rcases List.mem_append.mp hd with hd | hd
    · exact (entity_chars hname d (List.mem_append_right _ hd)).ne (by decide)
    · rw [List.mem_singleton.mp hd]
      decide
  have hstarts : n ++ [';'] <+: y' := by
    refine List.IsPrefix.trans ?_ hline
    have hcut : n ++ ';' :: rest = (n ++ [';']) ++ rest := by rw [List.append_assoc]; rfl
    rw [hcut, List.takeWhile_append_of_pos hchars]
    exact List.prefix_append _ _
  obtain ⟨left, rfl⟩ := hstarts
  refine ⟨before, after, hx, hnone, ?_⟩
  rw [decoded_eq_some.mpr ⟨after ++ n, ?_, hname, hsize⟩]
  · rfl
  · exact left
  · rw [List.append_assoc, List.append_assoc]
    rfl

end Walk

/-! ### Headings -/

section Headings

variable {tokens : List Token} {name : Text} {lo hi pos s k : ℕ}

theorem headingLevel_void : ∀ name ∈ VOID, headingLevel name = none := by decide

/-- A block closes a `<p>` alone. -/
theorem Consistent.mem_closeParagraph {m : Matching} (h : Consistent m) (pos : ℕ) (name : Text) {x : ℕ × Text}
    (hx : x ∈ m.stack) (hp : x.2 ≠ p) : x ∈ (m.closeParagraph pos name).stack := by
  rw [Matching.closeParagraph]
  split
  · rename_i hcloses
    obtain ⟨⟨popped, hpops⟩, hlength⟩ := h.closeDownTo (m.stack.length - 1) pos
    cases hstack : m.stack with
    | nil =>
      rw [hstack] at hx
      cases hx
    | cons top below =>
      have htop : top.2 = p := by
        rw [hstack] at hcloses
        simpa using hcloses.2
      have hone : popped.length = 1 := by
        have hall := congrArg List.length hpops.stack
        rw [List.length_append, hlength, hstack, List.length_cons] at hall
        rw [Nat.add_sub_cancel] at hall
        omega
      obtain ⟨closed, rfl⟩ := List.length_eq_one_iff.mp hone
      have hclosed := hpops.stack
      rw [hpops.stack] at hx
      rcases List.mem_cons.mp hx with rfl | hx
      · rw [hstack, List.singleton_append] at hclosed
        rw [← (List.cons.inj hclosed).1] at hp
        exact absurd htop hp
      · rw [← hstack]
        exact hx
  · exact hx

theorem exists_of_headingAt (h : (documentOf tokens).headingAt s = true) :
    ∃ name, (documentOf tokens).ElementAt s name ∧ (headingLevel name).isSome = true := by
  rw [Document.headingAt, Option.any_eq_true] at h
  obtain ⟨token, htoken, hheading⟩ := h
  cases token with
  | start name attributes => exact ⟨name, ⟨attributes, htoken⟩, hheading⟩
  | endTag name => cases hheading
  | text t => cases hheading

/-- A heading ends after it starts, at a token that is no text and starts no heading. -/
theorem end_of_heading (h : (documentOf tokens).headingAt s = true) : s < matchEnds tokens s ∧
    (documentOf tokens).headingAt (matchEnds tokens s) = false ∧
      (documentOf tokens).writtenAt (matchEnds tokens s) = [] := by
  obtain ⟨name, helement, hlevel⟩ := exists_of_headingAt h
  have hvoid : name ∉ VOID := fun hin => by
    rw [headingLevel_void name hin] at hlevel
    cases hlevel
  have hrun := run_openBefore tokens
  obtain ⟨hlt, hle⟩ := hrun.le_ends helement.lt (mem_openBefore_self helement hvoid)
  refine ⟨hlt, ?_⟩
  by_cases hk : matchEnds tokens s < tokens.length
  · -- The token that ends the heading closes it.
    have hopen : (documentOf tokens).OpenAt (matchEnds tokens s) s := ⟨⟨name, helement⟩, hlt, le_rfl⟩
    have hin := mem_before hk.le hopen helement
    have hclosed : (s, name) ∉ (before tokens (matchEnds tokens s + 1)).stack := fun hstill =>
      Nat.not_succ_le_self _ (hrun.le_ends hk (List.mem_map_of_mem hstill)).1
    rw [before_succ hk] at hclosed
    have hget : tokens[matchEnds tokens s]? = some tokens[matchEnds tokens s] := List.getElem?_eq_getElem hk
    have hheading : (documentOf tokens).headingAt (matchEnds tokens s) = tokens[matchEnds tokens s].isHeading := by
      change tokens[matchEnds tokens s]?.any Token.isHeading = _
      rw [hget, Option.any_some]
    have hwritten : (documentOf tokens).writtenAt (matchEnds tokens s) = tokens[matchEnds tokens s].written := by
      change tokens[matchEnds tokens s]?.elim [] Token.written = _
      rw [hget, Option.elim_some]
    rw [hheading, hwritten]
    cases htoken : tokens[matchEnds tokens s] with
    | text t =>
      rw [htoken] at hclosed
      exact absurd hin hclosed
    | endTag found => exact ⟨rfl, rfl⟩
    | start found attributes =>
      refine ⟨Bool.eq_false_iff.mpr fun hfound => hclosed ?_, rfl⟩
      change (headingLevel found).isSome = true at hfound
      have hfoundvoid : found ∉ VOID := fun hin => by
        rw [headingLevel_void found hin] at hfound
        cases hfound
      have hfoundli : found ≠ li := by
        rintro rfl
        cases hfound
      have hnamep : name ≠ p := by
        rintro rfl
        cases hlevel
      rw [htoken, Matching.step, if_neg hfoundvoid, Matching.closeItem, if_neg hfoundli]
      exact List.mem_cons_of_mem _ ((consistent_before hk.le).mem_closeParagraph _ found hin hnamep)
  · have hnone : tokens[matchEnds tokens s]? = none := List.getElem?_eq_none (Nat.not_lt.mp hk)
    constructor
    · change tokens[matchEnds tokens s]?.any Token.isHeading = false
      rw [hnone]
      rfl
    · change tokens[matchEnds tokens s]?.elim [] Token.written = []
      rw [hnone]
      rfl

/-- No heading that started in the range goes past `pos`. -/
def Outside (tokens : List Token) (lo pos : ℕ) : Prop :=
  ∀ s, lo ≤ s → s < pos → (documentOf tokens).headingAt s = true → matchEnds tokens s ≤ pos

theorem Outside.inHeading (h : Outside tokens lo pos) : (documentOf tokens).inHeading lo pos = false := by
  rw [Document.inHeading, List.any_eq_false]
  intro s hs
  obtain ⟨hlo, hlt⟩ := List.mem_range'_1.mp hs
  rw [Bool.and_eq_true, decide_eq_true_iff]
  rintro ⟨hheading, hin⟩
  have hle := h s hlo (by omega) hheading
  change pos < matchEnds tokens s at hin
  omega

theorem Outside.succ (h : Outside tokens lo pos) (hpos : (documentOf tokens).headingAt pos = false) :
    Outside tokens lo (pos + 1) := by
  intro s hlo hlt hs
  rcases Nat.lt_succ_iff_lt_or_eq.mp hlt with hlt | rfl
  · exact (h s hlo hlt hs).trans (Nat.le_succ _)
  · rw [hpos] at hs
    cases hs

theorem Outside.past (h : Outside tokens lo pos) (hpos : (documentOf tokens).headingAt pos = true) :
    Outside tokens lo (matchEnds tokens pos + 1) := by
  obtain ⟨hend, hlast, -⟩ := end_of_heading hpos
  intro s hlo hlt hs
  rcases Nat.lt_trichotomy s pos with hbefore | rfl | hafter
  · exact (h s hlo hbefore hs).trans (by omega)
  · exact Nat.le_succ _
  · rcases Nat.lt_succ_iff_lt_or_eq.mp hlt with hin | rfl
    · obtain ⟨name, helement, -⟩ := exists_of_headingAt hpos
      obtain ⟨name', helement', -⟩ := exists_of_headingAt hs
      exact (nested_of_lt ⟨name, helement⟩ ⟨name', helement'⟩ hafter hin).trans (Nat.le_succ _)
    · rw [hlast] at hs
      cases hs

/-- What the texts of `[pos, hi)` outside of headings read as. -/
def plainFrom (tokens : List Token) (lo hi pos : ℕ) : Text :=
  ((List.range' pos (hi - pos)).filter fun i => !(documentOf tokens).inHeading lo i).flatMap fun i =>
    visible (decodeEntities ((documentOf tokens).writtenAt i))

theorem plainFrom_succ (hpos : pos < hi) (h : Outside tokens lo pos) :
    plainFrom tokens lo hi pos =
      visible (decodeEntities ((documentOf tokens).writtenAt pos)) ++ plainFrom tokens lo hi (pos + 1) := by
  obtain ⟨n, hn⟩ : ∃ n, hi - pos = n + 1 := ⟨hi - pos - 1, by omega⟩
  have hrest : hi - (pos + 1) = n := by omega
  rw [plainFrom, plainFrom, hn, hrest, List.range'_succ, List.filter_cons_of_pos (by simp [h.inHeading]),
    List.flatMap_cons]

/-- Nothing of a heading is there. -/
theorem plainFrom_heading (hlo : lo ≤ pos) (hpos : (documentOf tokens).headingAt pos = true) :
    plainFrom tokens lo hi pos = plainFrom tokens lo hi (matchEnds tokens pos + 1) := by
  obtain ⟨hend, -, hlast⟩ := end_of_heading hpos
  have hfirst : (documentOf tokens).writtenAt pos = [] := by
    obtain ⟨name, ⟨attributes, htoken⟩, -⟩ := exists_of_headingAt hpos
    change (documentOf tokens).tokens[pos]?.elim [] Token.written = []
    rw [htoken]
    rfl
  have hnone : ∀ i, pos ≤ i → i < matchEnds tokens pos + 1 → (!(documentOf tokens).inHeading lo i) = true →
      visible (decodeEntities ((documentOf tokens).writtenAt i)) = [] := by
    intro i hge hlt hout
    have hnil : (documentOf tokens).writtenAt i = [] := by
      rcases Nat.eq_or_lt_of_le hge with rfl | hgt
      · exact hfirst
      · rcases Nat.lt_succ_iff_lt_or_eq.mp hlt with hin | rfl
        · have hheading : (documentOf tokens).inHeading lo i = true := by
            rw [Document.inHeading, List.any_eq_true]
            exact ⟨pos, List.mem_range'_1.mpr ⟨hlo, by omega⟩, by
              rw [hpos, Bool.true_and, decide_eq_true_iff]
              exact hin⟩
          rw [hheading] at hout
          cases hout
        · exact hlast
    rw [hnil, decodeEntities_nil]
    rfl
  obtain ⟨m, hm⟩ : ∃ m, m = min (matchEnds tokens pos + 1) hi - pos := ⟨_, rfl⟩
  have hsplit : List.range' pos (hi - pos) = List.range' pos m ++ List.range' (pos + m) (hi - pos - m) := by
    rw [List.range'_append_1]
    congr 1
    omega
  have hrest : List.range' (pos + m) (hi - pos - m) =
      List.range' (matchEnds tokens pos + 1) (hi - (matchEnds tokens pos + 1)) := by
    by_cases hle : matchEnds tokens pos + 1 ≤ hi
    · congr 1
      · omega
      · omega
    · have hzero : hi - pos - m = 0 := by omega
      have hzero' : hi - (matchEnds tokens pos + 1) = 0 := by omega
      rw [hzero, hzero']
      rfl
  rw [plainFrom, plainFrom, hsplit, hrest, List.filter_append, List.flatMap_append]
  refine (congrArg (· ++ _) (List.flatMap_eq_nil_iff.mpr fun i hi => ?_)).trans (List.nil_append _)
  obtain ⟨hin, hout⟩ := List.mem_filter.mp hi
  obtain ⟨hge, hlt⟩ := List.mem_range'_1.mp hin
  exact hnone i hge (by omega) hout

/-- The lines read as the texts outside of the headings. -/
theorem visible_rawLines (hhi : hi ≤ (documentOf tokens).tokens.length) (pos : ℕ) :
    lo ≤ pos → Outside tokens lo pos → ¬ AnyRunsOver (((documentOf tokens).tokensIn (pos, hi)).map rawText) →
      visible (decodeEntities ((documentOf tokens).rawLines hi pos)) = plainFrom tokens lo hi pos := by
  induction pos using (documentOf tokens).walk_induction hi hhi with
  | hend pos hpos =>
    intro _ _ _
    have hzero : hi - pos = 0 := Nat.sub_eq_zero_of_le hpos
    rw [Document.rawLines_end hpos, decodeEntities_nil, plainFrom, hzero]
    rfl
  | hheading pos hpos hlt hheading ih =>
    intro hlo hout hover
    have hat : (documentOf tokens).headingAt pos = true := by
      rw [Document.headingAt, List.getElem?_eq_getElem (hpos.trans_le hhi)]
      exact hheading
    have hend : pos < (documentOf tokens).endOf pos := (end_of_heading hat).1
    rw [Document.rawLines_heading hpos hhi hheading, decodeEntities_cons (by decide),
      visible_cons_of_whitespace (by decide), plainFrom_heading hlo hat]
    rw [max_eq_left hend.le] at ih ⊢
    refine ih (by omega) (hout.past hat) fun hany => hover ?_
    have hle : pos ≤ (documentOf tokens).endOf pos + 1 := by omega
    obtain ⟨skipped, hskipped⟩ := (documentOf tokens).tokensIn_suffix hi hle
    rw [← hskipped, List.map_append]
    exact hany.append_left _
  | htoken pos hpos hlt hheading ih =>
    intro hlo hout hover
    have hat : (documentOf tokens).headingAt pos = false := by
      rw [Document.headingAt, List.getElem?_eq_getElem (hpos.trans_le hhi)]
      exact hheading
    rw [Document.tokensIn_cons hpos hhi, List.map_cons, AnyRunsOver, not_or] at hover
    have hrest := ih (by omega) (hout.succ hat) hover.2
    have hwritten : (documentOf tokens).writtenAt pos = (documentOf tokens).tokens[pos].written := by
      rw [Document.writtenAt, List.getElem?_eq_getElem (hpos.trans_le hhi), Option.elim_some]
    rw [Document.rawLines_token hpos hhi hheading, plainFrom_succ hpos hout, ← hrest, hwritten]
    have hblock : ∀ block : Bool,
        visible (decodeEntities ((if block then ['\n'] else []) ++ (documentOf tokens).rawLines hi (pos + 1))) =
          visible (decodeEntities []) ++ visible (decodeEntities ((documentOf tokens).rawLines hi (pos + 1))) := by
      intro block
      rw [decodeEntities_nil]
      cases block with
      | true =>
        change visible (decodeEntities ('\n' :: _)) = _
        rw [decodeEntities_cons (by decide), visible_cons_of_whitespace (by decide)]
        rfl
      | false => rfl
    have hfirst := hover.1
    cases htoken : (documentOf tokens).tokens[pos] with
    | text t =>
      rw [htoken] at hfirst
      have hnot : ¬ RunsOver t ((documentOf tokens).rawLines hi (pos + 1)) := fun hruns =>
        hfirst (runsOver_of_line (Document.takeWhile_rawLines hhi (pos + 1)) hruns)
      change visible (decodeEntities (t ++ _)) = visible (decodeEntities t) ++ _
      rw [decodeEntities_append_of_not hnot, visible_append]
    | start name attributes => exact hblock (isBlock name)
    | endTag name => exact hblock (isBlock name)

end Headings

/-! ### Items -/

section Items

variable {tokens : List Token} {lo hi pos q s : ℕ} {opened : List OpenItem} {items : List Text}

theorem elementAt_of_itemAt (h : (documentOf tokens).itemAt s = true) : (documentOf tokens).ElementAt s li := by
  rw [Document.itemAt, Option.any_eq_true] at h
  obtain ⟨token, htoken, hitem⟩ := h
  cases token with
  | start name attributes => exact ⟨attributes, (of_decide_eq_true hitem) ▸ htoken⟩
  | endTag name => cases hitem
  | text t => cases hitem

theorem lt_end_of_item (h : (documentOf tokens).itemAt s = true) : s < matchEnds tokens s :=
  ((nested_documentOf tokens).extent s li (elementAt_of_itemAt h) (by decide)).1

/-- An item that starts inside of another ends inside of it. -/
theorem end_le_of_item {j : ℕ} (hs : (documentOf tokens).itemAt s = true) (hj : (documentOf tokens).itemAt j = true)
    (hsj : s < j) (hin : j < matchEnds tokens s) : matchEnds tokens j ≤ matchEnds tokens s :=
  nested_of_lt ⟨li, elementAt_of_itemAt hs⟩ ⟨li, elementAt_of_itemAt hj⟩ hsj hin

theorem leafAt_iff : (documentOf tokens).leafAt hi s = true ↔ (documentOf tokens).itemAt s = true ∧
    ∀ j, s < j → j < min (matchEnds tokens s) hi → (documentOf tokens).itemAt j = false := by
  rw [Document.leafAt, Bool.and_eq_true, Bool.not_eq_true', List.any_eq_false]
  refine and_congr_right fun _ => ⟨fun h j hsj hj => ?_, fun h j hj => ?_⟩
  · have hnot := h j (List.mem_range'_1.mpr ⟨hsj, by
      change j < s + 1 + (min (matchEnds tokens s) hi - (s + 1))
      omega⟩)
    simpa using hnot
  · obtain ⟨hsj, hlt⟩ := List.mem_range'_1.mp hj
    change j < s + 1 + (min (matchEnds tokens s) hi - (s + 1)) at hlt
    rw [h j hsj (by omega)]
    exact Bool.false_ne_true

/-- The text of an item, as far as the range goes. -/
def itemText (tokens : List Token) (hi s : ℕ) : Text := (documentOf tokens).textIn (s + 1, min (matchEnds tokens s) hi)

/-- The non-empty texts of the items before `pos` that hold no other, those of `closed`. -/
def leafTexts (tokens : List Token) (lo hi pos : ℕ) (closed : ℕ → Bool) : List Text :=
  (((List.range' lo (pos - lo)).filter fun s => (documentOf tokens).leafAt hi s && closed s).map
    (itemText tokens hi)).filter (· ≠ [])

/-- An item started at `s` and open at `pos`. -/
structure OpenItem.At (tokens : List Token) (pos s : ℕ) (item : OpenItem) : Prop where
  finish : item.finish = matchEnds tokens s
  leaf : item.parent = false → (∀ j, s < j → j < pos → (documentOf tokens).itemAt j = false) ∧
    item.raw = ((documentOf tokens).tokensIn (s + 1, pos)).flatMap rawText
  parent : item.parent = true → ∃ j, s < j ∧ j < pos ∧ j < matchEnds tokens s ∧ (documentOf tokens).itemAt j = true

/-- The loop before `pos`: the items that end at `q` or later are open, and those that hold no other and end before
    are read. -/
structure ItemsAt (tokens : List Token) (lo hi pos q : ℕ) (starts : List ℕ) (opened : List OpenItem)
    (items : List Text) : Prop where
  mem : ∀ s, s ∈ starts ↔ lo ≤ s ∧ s < pos ∧ (documentOf tokens).itemAt s = true ∧ q ≤ matchEnds tokens s
  sorted : starts.Pairwise (· > ·)
  opened : List.Forall₂ (OpenItem.At tokens pos) starts opened
  items : items = leafTexts tokens lo hi pos fun s => matchEnds tokens s < q

/-- All but the innermost hold another. -/
theorem parents_below {starts : List ℕ} {item : OpenItem} {below : List OpenItem}
    (hsorted : (s :: starts).Pairwise (· > ·)) (hs : (documentOf tokens).itemAt s = true) (hpos : s < pos)
    (hopened : List.Forall₂ (OpenItem.At tokens pos) (s :: starts) (item :: below)) :
    ∀ item ∈ below, item.parent = true := by
  obtain ⟨hlt, -⟩ := List.pairwise_cons.mp hsorted
  cases hopened with
  | cons _ hbelow =>
    intro item hitem
    obtain ⟨n, hn, hget⟩ := List.mem_iff_getElem.mp hitem
    have hlength := hbelow.length_eq
    have hat := hbelow.get (i := n) (by omega) hn
    by_contra hparent
    have hnone := (hat.leaf (by simpa [hget] using hparent)).1 s (hlt _ (List.getElem_mem _)) hpos
    rw [hs] at hnone
    cases hnone

/-- Items that hold another are closed without a trace. -/
theorem closeItems_parents (bound : Option ℕ) (h : ∀ item ∈ opened, item.parent = true) (items : List Text) :
    closeItems bound opened items = (opened.dropWhile fun item => bound.all (item.finish ≤ ·), items) := by
  induction opened with
  | nil => rfl
  | cons item below ih =>
    rw [List.forall_mem_cons] at h
    rw [closeItems, List.dropWhile_cons]
    split
    · rw [if_pos h.1]
      exact ih h.2
    · rfl

theorem closeItems_cons (bound : Option ℕ) {item : OpenItem} (h : ∀ item ∈ opened, item.parent = true)
    (items : List Text) :
    closeItems bound (item :: opened) items =
      ((item :: opened).dropWhile fun item => bound.all (item.finish ≤ ·),
        items ++ if bound.all (item.finish ≤ ·) && !item.parent then [plainText item.raw].filter (· ≠ []) else []) := by
  rw [closeItems, List.dropWhile_cons]
  cases hstop : bound.all (item.finish ≤ ·) with
  | false =>
    rw [if_neg Bool.false_ne_true, if_neg Bool.false_ne_true, Bool.false_and, if_neg Bool.false_ne_true,
      List.append_nil]
  | true =>
    rw [if_pos rfl, if_pos rfl, closeItems_parents bound h, Bool.true_and]
    cases item.parent with
    | true =>
      rw [if_pos rfl, Bool.not_true, if_neg Bool.false_ne_true, List.append_nil]
    | false =>
      rw [if_neg Bool.false_ne_true, Bool.not_false, if_pos rfl]
      by_cases hnil : plainText item.raw = []
      · rw [if_pos hnil, hnil]
        exact congrArg (Prod.mk _) (List.append_nil items).symm
      · rw [if_neg hnil, List.filter_cons_of_pos (by simpa using hnil), List.filter_nil]

/-- One more is found, and it is the last. -/
theorem filter_range'_concat {P Q : ℕ → Bool} {n : ℕ} (hlo : lo ≤ s) (hs : s < lo + n)
    (hQ : ∀ i, lo ≤ i → i < lo + n → (Q i = true ↔ P i = true ∨ i = s))
    (hP : ∀ i, s ≤ i → i < lo + n → P i = false) :
    (List.range' lo n).filter Q = (List.range' lo n).filter P ++ [s] := by
  obtain ⟨m, rfl⟩ := Nat.exists_eq_add_of_le hlo
  have hsplit : List.range' lo n = List.range' lo m ++ (lo + m) :: List.range' (lo + m + 1) (n - m - 1) := by
    rw [← List.range'_succ, List.range'_append_1]
    congr 1
    omega
  have hbefore : (List.range' lo m).filter Q = (List.range' lo m).filter P := by
    refine List.filter_congr fun i hi => ?_
    obtain ⟨hge, hlt⟩ := List.mem_range'_1.mp hi
    rw [Bool.eq_iff_iff, hQ i hge (by omega)]
    exact or_iff_left (by omega)
  have hafter : ∀ i ∈ List.range' (lo + m + 1) (n - m - 1), P i = false ∧ Q i = false := by
    intro i hi
    obtain ⟨hge, hlt⟩ := List.mem_range'_1.mp hi
    have hnot := hP i (by omega) (by omega)
    refine ⟨hnot, Bool.eq_false_iff.mpr fun hq => ?_⟩
    rcases (hQ i (by omega) (by omega)).mp hq with hp | heq
    · rw [hnot] at hp
      cases hp
    · omega
  have hafterP : (List.range' (lo + m + 1) (n - m - 1)).filter P = [] :=
    List.filter_eq_nil_iff.mpr fun i hi => by rw [(hafter i hi).1]; exact Bool.false_ne_true
  have hafterQ : (List.range' (lo + m + 1) (n - m - 1)).filter Q = [] :=
    List.filter_eq_nil_iff.mpr fun i hi => by rw [(hafter i hi).2]; exact Bool.false_ne_true
  rw [hsplit, List.filter_append, List.filter_append, hbefore,
    List.filter_cons_of_pos ((hQ (lo + m) hlo hs).mpr (.inr rfl)), hafterQ,
    List.filter_cons_of_neg (by rw [hP (lo + m) le_rfl hs]; exact Bool.false_ne_true), hafterP, List.append_nil]

section Close

variable {starts : List ℕ} (h : ItemsAt tokens lo hi pos pos starts opened items) (hpos : pos ≤ hi)

include h hpos

/-- An open item that holds no other is the innermost. -/
theorem ItemsAt.innermost {j : ℕ} (hs : s ∈ starts) (hj : j ∈ starts) (hleaf : (documentOf tokens).leafAt hi s = true) :
    j ≤ s := by
  by_contra hlt
  obtain ⟨-, hspos, -, hend⟩ := (h.mem s).mp hs
  obtain ⟨-, hjpos, hitem, -⟩ := (h.mem j).mp hj
  have hnone := (leafAt_iff.mp hleaf).2 j (by omega) (by omega)
  rw [hitem] at hnone
  cases hnone

/-- Closing reads the items that hold no other and end there. -/
theorem ItemsAt.close (bound : Option ℕ)
    (hbound : ∀ s ∈ starts, bound.all (matchEnds tokens s ≤ ·) = true → min (matchEnds tokens s) hi = pos) :
    closeItems bound opened items = (opened.dropWhile fun item => bound.all (item.finish ≤ ·),
      leafTexts tokens lo hi pos fun s => decide (matchEnds tokens s < pos) || bound.all (matchEnds tokens s ≤ ·)) := by
  -- What is read at the end of the item, if it holds no other.
  have hsame : (∀ s ∈ starts, (documentOf tokens).leafAt hi s = true → bound.all (matchEnds tokens s ≤ ·) = false) →
      items = leafTexts tokens lo hi pos fun s =>
        decide (matchEnds tokens s < pos) || bound.all (matchEnds tokens s ≤ ·) := by
    intro hnone
    rw [h.items, leafTexts, leafTexts]
    congr 2
    refine List.filter_congr fun s hs => ?_
    obtain ⟨hlo, hlt⟩ := List.mem_range'_1.mp hs
    cases hleaf : (documentOf tokens).leafAt hi s with
    | false => rfl
    | true =>
      rw [Bool.true_and, Bool.true_and]
      by_cases hopen : pos ≤ matchEnds tokens s
      · rw [hnone s ((h.mem s).mpr ⟨hlo, by omega, (leafAt_iff.mp hleaf).1, hopen⟩) hleaf, Bool.or_false]
      · rw [decide_eq_true (Nat.not_le.mp hopen), Bool.true_or]
  have hopened := h.opened
  cases hopened with
  | nil =>
    rw [closeItems, ← hsame fun s hs => absurd hs List.not_mem_nil]
    rfl
  | @cons s item starts below hitem hbelow =>
    obtain ⟨hlo, hspos, hs, hend⟩ := (h.mem s).mp List.mem_cons_self
    rw [closeItems_cons bound (parents_below h.sorted hs hspos h.opened), hitem.finish]
    congr 1
    cases hstop : bound.all (matchEnds tokens s ≤ ·) with
    | false =>
      rw [Bool.false_and, if_neg Bool.false_ne_true, List.append_nil]
      refine hsame fun i hi hleaf => ?_
      have hle := h.innermost hpos hi List.mem_cons_self hleaf
      rcases List.mem_cons.mp hi with rfl | hi
      · exact hstop
      · have hlt := (List.pairwise_cons.mp h.sorted).1 i hi
        omega
    | true =>
      have hmin := hbound s List.mem_cons_self hstop
      rw [Bool.true_and]
      cases hparent : item.parent with
      | true =>
        rw [Bool.not_true, if_neg Bool.false_ne_true, List.append_nil]
        refine hsame fun i hi hleaf => ?_
        have hle := h.innermost hpos hi List.mem_cons_self hleaf
        rcases List.mem_cons.mp hi with rfl | hi
        · obtain ⟨j, hj, hjpos, hjend, hjitem⟩ := hitem.parent hparent
          have hnone := (leafAt_iff.mp hleaf).2 j hj (by omega)
          rw [hjitem] at hnone
          cases hnone
        · have hlt := (List.pairwise_cons.mp h.sorted).1 i hi
          omega
      | false =>
        obtain ⟨hnone, hraw⟩ := hitem.leaf hparent
        have hleaf : (documentOf tokens).leafAt hi s = true :=
          leafAt_iff.mpr ⟨hs, fun j hj hlt => hnone j hj (by omega)⟩
        have htext : plainText item.raw = itemText tokens hi s := by
          rw [itemText, hmin, hraw]
          rfl
        have hfound : ∀ i, lo ≤ i → i < lo + (pos - lo) →
            (((documentOf tokens).leafAt hi i &&
              (decide (matchEnds tokens i < pos) || bound.all (matchEnds tokens i ≤ ·))) = true ↔
              ((documentOf tokens).leafAt hi i && decide (matchEnds tokens i < pos)) = true ∨ i = s) := by
          intro i hge hlt
          rw [Bool.and_eq_true, Bool.and_eq_true, Bool.or_eq_true, decide_eq_true_iff]
          constructor
          · rintro ⟨hleaf', hclosed⟩
            by_cases hopen : pos ≤ matchEnds tokens i
            · have hi := (h.mem i).mpr ⟨hge, by omega, (leafAt_iff.mp hleaf').1, hopen⟩
              have hle := h.innermost hpos hi List.mem_cons_self hleaf'
              have hle' := h.innermost hpos List.mem_cons_self hi hleaf
              exact .inr (by omega)
            · exact .inl ⟨hleaf', Nat.not_le.mp hopen⟩
          · rintro (⟨hleaf', hclosed⟩ | rfl)
            · exact ⟨hleaf', .inl hclosed⟩
            · exact ⟨hleaf, .inr hstop⟩
        have hnew : ∀ i, s ≤ i → i < lo + (pos - lo) →
            ((documentOf tokens).leafAt hi i && decide (matchEnds tokens i < pos)) = false := by
          intro i hge hlt
          rw [Bool.and_eq_false_iff]
          rcases Nat.eq_or_lt_of_le hge with rfl | hgt
          · exact .inr (decide_eq_false (Nat.not_lt.mpr hend))
          · refine .inl (Bool.eq_false_iff.mpr fun hleaf' => ?_)
            have hitem' := hnone i hgt (by omega)
            rw [(leafAt_iff.mp hleaf').1] at hitem'
            cases hitem'
        rw [Bool.not_false, if_pos rfl, htext, h.items, leafTexts, leafTexts, ← List.filter_append,
          filter_range'_concat hlo (by omega) hfound hnew, List.map_append, List.map_singleton]

end Close

theorem mem_dropWhile_of_pairwise {f : ℕ → ℕ} {l : List ℕ} (h : l.Pairwise fun a b => f a ≤ f b) :
    s ∈ l.dropWhile (fun a => decide (f a ≤ pos)) ↔ s ∈ l ∧ pos < f s := by
  induction l with
  | nil => simp
  | cons a l ih =>
    obtain ⟨hle, hrest⟩ := List.pairwise_cons.mp h
    rw [List.dropWhile_cons]
    split
    · rename_i ha
      rw [ih hrest, List.mem_cons]
      refine and_congr_left fun hs => (or_iff_right ?_).symm
      rintro rfl
      exact absurd (of_decide_eq_true ha) (Nat.not_le.mpr hs)
    · rename_i ha
      have ha : pos < f a := by simpa using ha
      refine (and_iff_left_of_imp fun hs => ?_).symm
      rcases List.mem_cons.mp hs with rfl | hs
      · exact ha
      · exact ha.trans_le (hle s hs)

theorem forall₂_dropWhile {R : ℕ → OpenItem → Prop} {f : ℕ → Bool} {g : OpenItem → Bool} {l : List ℕ}
    {l' : List OpenItem} (h : List.Forall₂ R l l') (hfg : ∀ a b, R a b → f a = g b) :
    List.Forall₂ R (l.dropWhile f) (l'.dropWhile g) := by
  induction h with
  | nil => exact .nil
  | @cons a b l l' hab hrest ih =>
    rw [List.dropWhile_cons, List.dropWhile_cons, hfg a b hab]
    split
    · exact ih
    · exact .cons hab hrest

/-- The items that end at `pos` are closed. -/
theorem ItemsAt.closed {starts : List ℕ} (h : ItemsAt tokens lo hi pos pos starts opened items) (hpos : pos < hi) :
    ∃ starts', ItemsAt tokens lo hi pos (pos + 1) starts' (closeItems (some pos) opened items).1
      (closeItems (some pos) opened items).2 := by
  have hends : starts.Pairwise fun a b => matchEnds tokens a ≤ matchEnds tokens b := by
    refine h.sorted.imp_of_mem fun ha hb hgt => ?_
    obtain ⟨-, hapos, hitem, -⟩ := (h.mem _).mp ha
    obtain ⟨-, -, hitem', hend⟩ := (h.mem _).mp hb
    exact end_le_of_item hitem' hitem hgt (by omega)
  have hclose := h.close hpos.le (some pos) fun s hs hstop => by
    have hle : matchEnds tokens s ≤ pos := of_decide_eq_true hstop
    have hge := ((h.mem s).mp hs).2.2.2
    omega
  rw [hclose]
  refine ⟨starts.dropWhile fun s => decide (matchEnds tokens s ≤ pos), fun s => ?_, ?_, ?_, ?_⟩
  · rw [mem_dropWhile_of_pairwise hends, h.mem]
    constructor
    · rintro ⟨⟨hlo, hlt, hitem, -⟩, hend⟩
      exact ⟨hlo, hlt, hitem, hend⟩
    · rintro ⟨hlo, hlt, hitem, hend⟩
      exact ⟨⟨hlo, hlt, hitem, by omega⟩, hend⟩
  · exact h.sorted.sublist (List.dropWhile_sublist _)
  · refine forall₂_dropWhile h.opened fun s item hitem => ?_
    rw [hitem.finish]
    rfl
  · dsimp only
    rw [leafTexts, leafTexts]
    congr 2
    refine List.filter_congr fun s _ => congrArg _ ?_
    rw [Bool.eq_iff_iff, Bool.or_eq_true, decide_eq_true_iff, decide_eq_true_iff, Option.all_some, decide_eq_true_iff]
    omega

theorem leafTexts_succ {closed : ℕ → Bool} (hlo : lo ≤ pos)
    (h : ((documentOf tokens).leafAt hi pos && closed pos) = false) :
    leafTexts tokens lo hi (pos + 1) closed = leafTexts tokens lo hi pos closed := by
  have hrange : List.range' lo (pos + 1 - lo) = List.range' lo (pos - lo) ++ [pos] := by
    have hsucc : pos + 1 - lo = pos - lo + 1 := by omega
    have hlast : lo + (pos - lo) = pos := by omega
    rw [hsucc, List.range'_1_concat, hlast]
  rw [leafTexts, leafTexts, hrange, List.filter_append, List.filter_cons_of_neg (by rw [h]; exact Bool.false_ne_true),
    List.filter_nil, List.append_nil]

/-- What holds another item still does. -/
theorem OpenItem.At.succ {item : OpenItem} (h : item.At tokens pos s) (hparent : item.parent = true) :
    item.At tokens (pos + 1) s := by
  refine ⟨h.finish, fun hleaf => ?_, fun _ => ?_⟩
  · rw [hparent] at hleaf
    cases hleaf
  · obtain ⟨j, hj, hlt, hrest⟩ := h.parent hparent
    exact ⟨j, hj, Nat.lt_succ_of_lt hlt, hrest⟩

/-- The innermost item may change. -/
theorem ItemsAt.onInnermost {starts : List ℕ} {f : OpenItem → OpenItem}
    (h : ItemsAt tokens lo hi pos (pos + 1) starts opened items)
    (hf : ∀ s item, item.At tokens pos s → pos < matchEnds tokens s → s < pos → (f item).At tokens (pos + 1) s) :
    List.Forall₂ (OpenItem.At tokens (pos + 1)) starts (Html.onInnermost f opened) := by
  have hopened := h.opened
  cases hopened with
  | nil => exact .nil
  | @cons s item starts below hitem hbelow =>
    obtain ⟨-, hlt, hs, hend⟩ := (h.mem s).mp List.mem_cons_self
    have hparents := parents_below h.sorted hs hlt h.opened
    refine .cons (hf s item hitem hend hlt) ?_
    refine List.forall₂_iff_get.mpr ⟨hbelow.length_eq, fun i hi hi' => ?_⟩
    exact (hbelow.get hi hi').succ (hparents _ (List.get_mem _ _))

/-- One turn of the loop. -/
theorem ItemsAt.step {starts : List ℕ} (h : ItemsAt tokens lo hi pos pos starts opened items) (hlo : lo ≤ pos)
    (hpos : pos < hi) (hhi : hi ≤ tokens.length) :
    ∃ starts', ItemsAt tokens lo hi (pos + 1) (pos + 1) starts' ((documentOf tokens).itemStep (opened, items) pos).1
      ((documentOf tokens).itemStep (opened, items) pos).2 := by
  obtain ⟨starts', hclosed⟩ := h.closed hpos
  have hin : pos < (documentOf tokens).tokens.length := hpos.trans_le hhi
  have hget := List.getElem?_eq_getElem hin
  have hitem : (documentOf tokens).itemAt pos = (documentOf tokens).tokens[pos].isItem := by
    rw [Document.itemAt, hget, Option.any_some]
  simp only [Document.itemStep, hget]
  rw [← hitem]
  cases hat : (documentOf tokens).itemAt pos with
  | true =>
    have hend := lt_end_of_item hat
    rw [if_pos rfl]
    refine ⟨pos :: starts', fun s => ?_, ?_, ?_, ?_⟩
    · rw [List.mem_cons, hclosed.mem]
      constructor
      · rintro (rfl | ⟨hge, hlt, hs, hopen⟩)
        · exact ⟨hlo, Nat.lt_succ_self _, hat, hend⟩
        · exact ⟨hge, Nat.lt_succ_of_lt hlt, hs, hopen⟩
      · rintro ⟨hge, hlt, hs, hopen⟩
        rcases Nat.lt_succ_iff_lt_or_eq.mp hlt with hlt | rfl
        · exact .inr ⟨hge, hlt, hs, hopen⟩
        · exact .inl rfl
    · exact List.pairwise_cons.mpr ⟨fun s hs => ((hclosed.mem s).mp hs).2.1, hclosed.sorted⟩
    · refine .cons ⟨rfl, fun _ => ⟨fun j hj hlt => by omega, ?_⟩, fun hparent => by cases hparent⟩ ?_
      · rw [Document.tokensIn, List.drop_eq_nil_of_le (List.length_take_le _ _)]
        rfl
      · exact hclosed.onInnermost fun s item hs hopen hlt =>
          ⟨hs.finish, fun hleaf => (by cases hleaf), fun _ => ⟨pos, hlt, Nat.lt_succ_self _, hopen, hat⟩⟩
    · rw [hclosed.items, leafTexts_succ hlo]
      rw [Bool.and_eq_false_iff, decide_eq_false_iff_not]
      exact .inr (by omega)
  | false =>
    rw [if_neg Bool.false_ne_true]
    refine ⟨starts', fun s => ?_, hclosed.sorted, ?_, ?_⟩
    · rw [hclosed.mem]
      constructor
      · rintro ⟨hge, hlt, hs, hopen⟩
        exact ⟨hge, Nat.lt_succ_of_lt hlt, hs, hopen⟩
      · rintro ⟨hge, hlt, hs, hopen⟩
        rcases Nat.lt_succ_iff_lt_or_eq.mp hlt with hlt | rfl
        · exact ⟨hge, hlt, hs, hopen⟩
        · rw [hat] at hs
          cases hs
    · refine hclosed.onInnermost fun s item hs hopen hlt => ⟨hs.finish, fun hleaf => ?_, fun hparent => ?_⟩
      · obtain ⟨hnone, hraw⟩ := hs.leaf hleaf
        refine ⟨fun j hj hjlt => ?_, ?_⟩
        · rcases Nat.lt_succ_iff_lt_or_eq.mp hjlt with hjlt | rfl
          · exact hnone j hj hjlt
          · exact hat
        · have hsnoc : (documentOf tokens).tokensIn (s + 1, pos + 1) =
              (documentOf tokens).tokensIn (s + 1, pos) ++ [(documentOf tokens).tokens[pos]] := by
            rw [Document.tokensIn, Document.tokensIn, List.take_add_one, hget, Option.toList_some,
              List.drop_append_of_le_length (by rw [List.length_take_of_le hin.le]; omega)]
          rw [hsnoc, List.flatMap_append, List.flatMap_singleton, ← hraw]
      · obtain ⟨j, hj, hjlt, hrest⟩ := hs.parent hparent
        exact ⟨j, hj, Nat.lt_succ_of_lt hjlt, hrest⟩
    · rw [hclosed.items, leafTexts_succ hlo]
      rw [Bool.and_eq_false_iff, decide_eq_false_iff_not]
      refine .inl (Bool.eq_false_iff.mpr fun hleaf => ?_)
      rw [(leafAt_iff.mp hleaf).1] at hat
      cases hat

/-- The turns of the loop. -/
theorem itemsAt_foldl (hhi : hi ≤ tokens.length) {n : ℕ} (hn : lo + n ≤ hi) :
    ∃ starts, ItemsAt tokens lo hi (lo + n) (lo + n) starts
      ((List.range' lo n).foldl (documentOf tokens).itemStep ([], [])).1
      ((List.range' lo n).foldl (documentOf tokens).itemStep ([], [])).2 := by
  induction n with
  | zero =>
    refine ⟨[], fun s => ?_, .nil, .nil, ?_⟩
    · exact iff_of_false List.not_mem_nil fun h => by omega
    · rw [Nat.add_zero, leafTexts, Nat.sub_self]
      rfl
  | succ n ih =>
    obtain ⟨starts, hat⟩ := ih (by omega)
    rw [List.range'_1_concat, List.foldl_append]
    exact hat.step (Nat.le_add_right _ _) hn hhi

theorem leafItemsIn_eq (hle : lo ≤ hi) (hhi : hi ≤ tokens.length) :
    (documentOf tokens).leafItemsIn (lo, hi) =
      (((List.range' lo (hi - lo)).filter ((documentOf tokens).leafAt hi)).map (itemText tokens hi)).filter (· ≠ []) := by
  have hlast : lo + (hi - lo) = hi := by omega
  obtain ⟨starts, hat⟩ := itemsAt_foldl hhi hlast.le
  rw [hlast] at hat
  have hclose := hat.close le_rfl none fun s hs _ => by
    have hge := ((hat.mem s).mp hs).2.2.2
    omega
  rw [Document.leafItemsIn]
  change (closeItems none _ _).2 = _
  rw [hclose]
  dsimp only
  rw [leafTexts]
  congr 2
  refine List.filter_congr fun s _ => ?_
  rw [Option.all_none, Bool.or_true, Bool.and_true]

end Items

/-! ### What is kept -/

/-- Nothing but tags and whitespace is dropped of a range exactly if nothing in its texts joined, a space at each
    block, reads as a tag, and no entity runs over from one of them. -/
theorem range_keeps_iff (html : Text) {lo hi : ℕ} (hle : lo ≤ hi) (hhi : hi ≤ (Document.parse html).tokens.length) :
    (Document.parse html).Keeps (lo, hi) ↔
      ¬ ReadsTag (((Document.parse html).tokensIn (lo, hi)).flatMap rawText) ∧
        ¬ AnyRunsOver (((Document.parse html).tokensIn (lo, hi)).map rawText) := by
  refine ⟨fun h => (Document.visible_textIn _ _).mp h.text, fun h => ?_⟩
  obtain ⟨htag, hover⟩ := h
  refine ⟨(Document.visible_textIn _ _).mpr ⟨htag, hover⟩, ?_, leafItemsIn_eq hle hhi⟩
  have hlines : ¬ LineReadsTag ((Document.parse html).rawLines hi lo) := fun hline =>
    htag (Document.readsTag_of_rawLines hhi lo hline)
  rw [Document.linesIn, visible_lines hlines]
  exact visible_rawLines hhi lo le_rfl (fun s hlo hlt => by omega) hover

/-- A range of a list, its second item left open. -/
theorem range_keeps_list : (Document.parse "<ul><li>1 &lt; 2<li>3</ul>".toList).Keeps (0, 6) := by
  have htokens : (Document.parse "<ul><li>1 &lt; 2<li>3</ul>".toList).tokensIn (0, 6) =
      [.start ul [], .start li [], .text "1 &lt; 2".toList, .start li [], .text ['3'], .endTag ul] := by decide +kernel
  refine (range_keeps_iff "<ul><li>1 &lt; 2<li>3</ul>".toList (by decide) (by decide +kernel)).mpr ?_
  rw [htokens]
  constructor
  · rintro ⟨before, after, hsplit, -⟩
    have hin : '<' ∈ [Token.start ul [], .start li [], .text "1 &lt; 2".toList, .start li [], .text ['3'],
        .endTag ul].flatMap rawText := by
      rw [hsplit]
      exact List.mem_append_right _ List.mem_cons_self
    exact absurd hin (by decide)
  · have hread : decoded "lt; 2".toList = some ('<', " 2".toList) := by decide
    have hplain : ∀ {x y : Text}, '&' ∉ x → ¬ RunsOver x y := by
      rintro x y hx ⟨before, after, rfl, -⟩
      exact hx (List.mem_append_right _ List.mem_cons_self)
    have htext : ∀ y, ¬ RunsOver "1 &lt; 2".toList y := by
      intro y
      change ¬ RunsOver ('1' :: ' ' :: '&' :: "lt; 2".toList) y
      rw [runsOver_plain (by decide), runsOver_plain (by decide), runsOver_reference hread]
      exact hplain (by decide)
    rintro (h | h | h | h | h | h | h)
    · exact hplain (by decide) h
    · exact hplain (by decide) h
    · exact htext _ h
    · exact hplain (by decide) h
    · exact hplain (by decide) h
    · exact hplain (by decide) h
    · exact h

/-- Once the tags are dropped, a `<` before one and a `>` after it enclose what is between. -/
theorem range_loses_less : ¬ (Document.parse "<p>1 <<b>x></b></p>".toList).Keeps (0, 6) := by
  intro h
  exact absurd h.text (by decide +kernel)

end Home.Recipes.Html
