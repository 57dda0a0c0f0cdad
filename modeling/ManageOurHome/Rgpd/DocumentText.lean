import ManageOurHome.Rgpd.Rendered

/-! @src apps/shared/src/validation/rgpd.rs | layer:proof | family:legal documents

    The text of a rendered document: every character of the markdown but the whitespace, in order, less the markers of
    headings, lists, tables, code, strong text and links. A link leads to this site, or to a URL that says where else,
    unless its path starts as a host does.

        ## Vos **droits**    less    ##  **  **    is    Vosdroits -/

namespace Home.Rgpd

open HttpGuard (splitOnce)
open Recipes (linesFrom trimStart)

/-- A text but for its whitespace. -/
def visible (s : Text) : Text := s.filter fun c => !isWhitespace c

/-- What stands for a heading, an item, a cell, a row of lines, a code, a strong text, or a link. -/
inductive Marker : Text → Prop
  | heading {level : ℕ} (h : level ∈ [1, 2, 3]) : Marker (List.replicate level '#')
  | bullet : Marker ['-']
  | bar : Marker ['|']
  | rule {m : Text} (h : ∀ c ∈ m, c ∈ ['|', '-', ':']) : Marker m
  | ticks (run : ℕ) : Marker (List.replicate run '`')
  | strong : Marker ['*', '*']
  | opening : Marker ['[']
  | address {url : Text} (h : ')' ∉ url) : Marker (']' :: '(' :: url ++ [')'])

/-- The characters of the first, in order, less markers. -/
inductive Less : Text → Text → Prop
  | nil : Less [] []
  | keep {s t : Text} (c : Char) (h : Less s t) : Less (c :: s) (c :: t)
  | mark {m s t : Text} (hm : Marker m) (h : Less s t) : Less (m ++ s) t

variable {c d : Char} {s t u v m text raw trimmed before after needle content url label next : Text} {span : Span}

theorem Less.refl (s : Text) : Less s s := by
  induction s with
  | nil => exact .nil
  | cons c s ih => exact .keep c ih

theorem Less.append (h : Less s t) (h' : Less u v) : Less (s ++ u) (t ++ v) := by
  induction h with
  | nil => exact h'
  | keep c _ ih => exact .keep c ih
  | mark hm _ ih =>
    rw [List.append_assoc]
    exact .mark hm ih

theorem Less.marker (hm : Marker m) : Less m [] := by
  have hnil := Less.mark hm .nil
  rwa [List.append_nil] at hnil

/-- A marker before, and one after. -/
theorem Less.between {m' : Text} (hm : Marker m) (h : Less s t) (hm' : Marker m') : Less (m ++ s ++ m') t := by
  have hall := (Less.mark hm h).append (.marker hm')
  rwa [List.append_nil] at hall

theorem visible_append (u v : Text) : visible (u ++ v) = visible u ++ visible v := List.filter_append _ _

theorem visible_eq_self (h : ∀ c ∈ s, isWhitespace c = false) : visible s = s :=
  List.filter_eq_self.mpr fun c hc => by rw [h c hc]; rfl

theorem visible_cons (h : isWhitespace c = false) (s : Text) : visible (c :: s) = c :: visible s :=
  List.filter_cons_of_pos (by rw [h]; rfl)

theorem visible_blank (h : isWhitespace c = true) (s : Text) : visible (c :: s) = visible s :=
  List.filter_cons_of_neg (by rw [h]; decide)

theorem visible_of_blanks (h : ∀ c ∈ s, isWhitespace c = true) : visible s = [] :=
  List.filter_eq_nil_iff.mpr fun c hc => by rw [h c hc]; decide

theorem visible_trimStart (s : Text) : visible (s.dropWhile isWhitespace) = visible s := by
  have hsplit := congrArg visible (List.takeWhile_append_dropWhile (p := isWhitespace) (l := s))
  rwa [visible_append, visible_of_blanks fun c hc => List.mem_takeWhile_imp hc, List.nil_append] at hsplit

theorem visible_trimEnd (s : Text) : visible (s.rdropWhile isWhitespace) = visible s := by
  have hsplit : visible (s.rdropWhile isWhitespace ++ s.rtakeWhile isWhitespace) = visible s :=
    congrArg visible List.rdropWhile_append_rtakeWhile
  rwa [visible_append, visible_of_blanks fun c hc => List.mem_rtakeWhile_imp hc, List.append_nil] at hsplit

theorem visible_trim (s : Text) : visible (trim s) = visible s := by rw [trim, visible_trimEnd, visible_trimStart]

/-! ### What is found in a text -/

/-- The text of what is found. -/
def Span.plain : Span → Text
  | .code _ content => unpadded content
  | .strong content => content
  | .link label _ => label
  | .literal text => text

/-- What is shown of a text. -/
def shown (text : Text) : Text := (spans text).flatMap fun s => visible s.plain

theorem inlineForest_plain (text : Text) : visible (inlineForest text).plain = shown text := by
  have hspan : ∀ s : Span, s.forest.plain = s.plain := by
    intro s
    cases s <;> simp [Span.forest, plainElement, textForest, Markup.Forest.plain, Span.plain]
  rw [inlineForest, Markup.plain_concat, List.flatMap_map, shown, List.flatMap_congr fun s _ => hspan s, visible,
    List.filter_flatMap]
  rfl

theorem not_mem_before (h : splitOnce [d] s = some (before, after)) : d ∉ before := by
  induction s generalizing before after with
  | nil => cases h
  | cons c s ih =>
    rw [splitOnce] at h
    split at h
    · obtain ⟨rfl, -⟩ := Prod.mk.inj (Option.some.inj h)
      exact List.not_mem_nil
    · rename_i hstarts
      obtain ⟨⟨before', after'⟩, hsplit, heq⟩ := Option.map_eq_some_iff.mp h
      obtain ⟨rfl, rfl⟩ := Prod.mk.inj heq
      rw [List.mem_cons, not_or]
      refine ⟨?_, ih hsplit⟩
      rintro rfl
      exact hstarts (List.isPrefixOf_iff_prefix.mpr ⟨s, rfl⟩)

theorem visible_unpadded (content : Text) : visible (unpadded content) = visible content := by
  by_cases h : ∃ mid, Padded content mid
  · obtain ⟨mid, hmid⟩ := h
    rw [unpadded_of_padded hmid, hmid.1, visible_blank (by decide), visible_append]
    exact (List.append_nil _).symm
  · rw [unpadded_of_not_padded fun mid hmid => h ⟨mid, hmid⟩]

/-- What a turn finds is shown less its markers. -/
theorem less_span (hsource : ∀ label url, span = .link label url → ')' ∉ url) : Less (visible span.source) (visible span.plain) := by
  cases span with
  | code run content =>
    have hticks : visible (List.replicate run '`') = List.replicate run '`' := visible_eq_self fun c hc => by
      rw [List.eq_of_mem_replicate hc]
      decide
    rw [Span.source, visible_append, visible_append, hticks, Span.plain, visible_unpadded]
    exact .between (.ticks run) (.refl _) (.ticks run)
  | strong content =>
    rw [Span.source, visible_append, visible_append, Span.plain]
    exact .between .strong (.refl _) .strong
  | link label url =>
    have haddress : visible (']' :: '(' :: url ++ [')']) = ']' :: '(' :: visible url ++ [')'] := by
      rw [List.cons_append, List.cons_append, visible_cons (by decide), visible_cons (by decide), visible_append]
      rfl
    have hsplit : '[' :: label ++ ']' :: '(' :: url ++ [')'] = ['['] ++ label ++ (']' :: '(' :: url ++ [')']) := by simp
    rw [Span.source, hsplit, visible_append, visible_append, haddress, Span.plain]
    exact .between .opening (.refl _) (.address fun hmem => hsource label url rfl (List.mem_of_mem_filter hmem))
  | literal text => exact .refl _

theorem mem_spans (h : span ∈ spans text) : ∃ c rest, span = (turn c rest).1 := by
  induction text using spans.induct with
  | case1 =>
    rw [spans] at h
    cases h
  | case2 c rest ih =>
    rw [spans, List.mem_cons] at h
    rcases h with rfl | h
    · exact ⟨c, rest, rfl⟩
    · exact ih h

/-- The URL of a link is safe, and ends where it does. -/
theorem url_of_mem (h : .link label url ∈ spans text) : isSafeUrl url = true ∧ ')' ∉ url := by
  obtain ⟨c, rest, heq⟩ := mem_spans h
  have hturned := turned c rest
  generalize turn c rest = found at hturned heq
  cases hturned with
  | link hc hlink hsafe =>
    obtain ⟨rfl, rfl⟩ := Span.link.inj heq
    refine ⟨hsafe, ?_⟩
    rw [link] at hlink
    split at hlink
    · cases hlink
    · split at hlink
      · obtain ⟨⟨url', next'⟩, hurl, hsame⟩ := Option.map_eq_some_iff.mp hlink
        simp only [Prod.mk.injEq] at hsame
        obtain ⟨-, rfl, -⟩ := hsame
        exact not_mem_before hurl
      · cases hlink
  | _ => cases heq

/-- A text is shown less its markers. -/
theorem less_shown (text : Text) : Less (visible text) (shown text) := by
  have hspans : ∀ ss : List Span, (∀ s ∈ ss, s ∈ spans text) →
      Less (visible (ss.flatMap Span.source)) (ss.flatMap fun s => visible s.plain) := by
    intro ss
    induction ss with
    | nil => exact fun _ => .nil
    | cons s ss ih =>
      intro hss
      obtain ⟨hs, hss⟩ := List.forall_mem_cons.mp hss
      rw [List.flatMap_cons, visible_append, List.flatMap_cons]
      refine (less_span fun label url heq => ?_).append (ih hss)
      exact (url_of_mem (heq ▸ hs)).2
  have hall := hspans (spans text) fun s hs => hs
  rwa [spans_source] at hall

/-! ### What is held of the lines -/

def Piece.shown (p : Piece) : Text := p.texts.flatMap Rgpd.shown

/-- The characters of the lines of an open block. -/
def Held (s : Text) : Block → Prop
  | .None => s = []
  | .Paragraph lines => s = lines.flatMap visible
  | .List items => s = items.flatMap fun i => '-' :: visible i
  | .Table header rows => (header = [] → rows = []) ∧ Less s ((header ++ rows.flatten).flatMap shown)

/-- What the lines read so far have become: what is pushed out, and what is held. -/
structure Kept (s : Text) (page : Page Piece) : Prop where
  split : ∃ out held, s = out ++ held ∧ Less out (page.out.flatMap Piece.shown) ∧ Held held page.block
  leveled : ∀ p ∈ page.out, p.Leveled

variable {page : Page Piece} {b : Block} {cells header : List Text} {rows : List (List Text)} {level : ℕ} {item : Text}

theorem visible_intercalate (lines : List Text) : visible ([' '].intercalate lines) = lines.flatMap visible := by
  induction lines with
  | nil => rfl
  | cons line lines ih =>
    cases lines with
    | nil => rw [List.intercalate_singleton, List.flatMap_singleton]
    | cons next lines =>
      rw [List.intercalate_cons_cons, visible_append, visible_append, ih, List.flatMap_cons,
        List.flatMap_cons, List.flatMap_cons, show visible [' '] = [] by decide, List.append_nil]

theorem less_flatMap {α : Type} {f g : α → Text} {l : List α} (h : ∀ x ∈ l, Less (f x) (g x)) :
    Less (l.flatMap f) (l.flatMap g) := by
  induction l with
  | nil => exact .nil
  | cons x l ih =>
    obtain ⟨hx, hl⟩ := List.forall_mem_cons.mp h
    exact hx.append (ih hl)

/-- A block that ends is shown less its markers. -/
theorem Held.less (h : Held s b) : Less s (Piece.block b).shown := by
  cases b with
  | None => exact h ▸ .nil
  | Paragraph lines =>
    rw [show s = _ from h, ← visible_intercalate, Piece.shown, Piece.texts, List.flatMap_singleton]
    exact less_shown _
  | List items =>
    rw [show s = _ from h]
    exact less_flatMap fun i _ => .mark .bullet (less_shown i)
  | Table header rows => exact h.2

theorem Kept.flush (h : Kept s page) : Kept s (flush id page) ∧ (Rgpd.flush id page).block = .None := by
  obtain ⟨block, out⟩ := page
  obtain ⟨⟨before, held, rfl, hout, hheld⟩, hlevel⟩ := h
  cases block with
  | None => exact ⟨⟨⟨before, held, rfl, hout, hheld⟩, hlevel⟩, rfl⟩
  | _ =>
    refine ⟨⟨⟨before ++ held, [], (List.append_nil _).symm, ?_, rfl⟩, ?_⟩, rfl⟩
    · rw [Rgpd.flush, List.flatMap_append, List.flatMap_singleton]
      exact hout.append hheld.less
    · rw [Rgpd.flush]
      exact List.forall_mem_append.mpr ⟨hlevel, by simp [Piece.Leveled]⟩

/-- A block starts where the one before has ended. -/
theorem Kept.start (h : Kept s page) (hb : Held u b) : Kept (s ++ u) { Rgpd.flush id page with block := b } := by
  obtain ⟨⟨⟨before, held, rfl, hout, hheld⟩, hlevel⟩, hnone⟩ := h.flush
  rw [hnone] at hheld
  obtain rfl : held = [] := hheld
  exact ⟨⟨before, u, by rw [List.append_nil], hout, hb⟩, hlevel⟩

/-- A block goes on. -/
theorem Kept.more (h : Kept s page) (hb : ∀ held, Held held page.block → Held (held ++ u) b) :
    Kept (s ++ u) { page with block := b } := by
  obtain ⟨⟨before, held, rfl, hout, hheld⟩, hlevel⟩ := h
  exact ⟨⟨before, held ++ u, by rw [List.append_assoc], hout, hb held hheld⟩, hlevel⟩

theorem heading_spec (h : heading trimmed = some (level, text)) :
    level ∈ [1, 2, 3] ∧ visible trimmed = List.replicate level '#' ++ visible text := by
  obtain ⟨before, l, after, hlevels, hfound, -⟩ := List.findSome?_eq_some_iff.mp h
  split at hfound
  · rename_i rest hstarts
    split at hfound
    · cases hfound
    · obtain ⟨rfl, rfl⟩ := Prod.mk.inj (Option.some.inj hfound)
      refine ⟨hlevels ▸ List.mem_append_right _ List.mem_cons_self, ?_⟩
      rw [stripPrefix_eq_some.mp hstarts, visible_append, visible_append, visible_trim, visible_eq_self fun c hc => ?_,
        show visible [' '] = [] by decide, List.append_nil]
      rw [List.eq_of_mem_replicate hc]
      decide
  · cases hfound

/-! ### The lines of a table -/

theorem mem_trimMatches (h : d ∈ s) : d = c ∨ d ∈ trimMatches c s := by
  rw [← List.takeWhile_append_dropWhile (p := (· = c)) (l := s), List.mem_append] at h
  rcases h with h | h
  · exact .inl (by simpa using List.mem_takeWhile_imp h)
  · rw [← (List.rdropWhile_append_rtakeWhile : (s.dropWhile (· = c)).rdropWhile (· = c) ++ _ = _), List.mem_append] at h
    rcases h with h | h
    · exact .inr h
    · exact .inl (by simpa using List.mem_rtakeWhile_imp h)

/-- Between its bars. -/
theorem bars_of_trimMatches (s : Text) : ∃ m m', s = m ++ trimMatches '|' s ++ m' ∧ (∀ c ∈ m, c = '|') ∧ ∀ c ∈ m', c = '|' := by
  refine ⟨s.takeWhile (· = '|'), (s.dropWhile (· = '|')).rtakeWhile (· = '|'), ?_, fun c hc => ?_, fun c hc => ?_⟩
  · rw [trimMatches, List.append_assoc, List.rdropWhile_append_rtakeWhile, List.takeWhile_append_dropWhile]
  · simpa using List.mem_takeWhile_imp hc
  · simpa using List.mem_rtakeWhile_imp hc

theorem rule_of_bars (h : ∀ c ∈ m, c = '|') : Marker (visible m) :=
  .rule fun c hc => by
    rw [h c (List.mem_of_mem_filter hc)]
    decide

theorem less_cells (parts : List Text) :
    Less (visible (['|'].intercalate parts)) ((parts.map trim).flatMap shown) := by
  have hpart : ∀ part : Text, Less (visible part) (shown (trim part)) := by
    intro part
    have hless := less_shown (trim part)
    rwa [visible_trim] at hless
  induction parts with
  | nil => exact .nil
  | cons part parts ih =>
    rw [List.map_cons, List.flatMap_cons]
    cases parts with
    | nil =>
      rw [List.intercalate_singleton, List.map_nil, List.flatMap_nil, List.append_nil]
      exact hpart part
    | cons next parts =>
      rw [List.intercalate_cons_cons, List.append_assoc, visible_append, visible_append]
      exact (hpart part).append (.mark .bar ih)

/-- A line of a table is its cells, less its bars. -/
theorem less_row (trimmed : Text) : Less (visible trimmed) ((tableCells trimmed).flatMap shown) := by
  obtain ⟨m, m', hsplit, hm, hm'⟩ := bars_of_trimMatches trimmed
  have hcells := less_cells ((trimMatches '|' trimmed).splitOn '|')
  rw [List.intercalate_splitOn] at hcells
  have hall := Less.between (rule_of_bars hm) hcells (rule_of_bars hm')
  rwa [← visible_append, ← visible_append, ← hsplit] at hall

theorem mem_splitOn (h : d ∈ s) : d = c ∨ ∃ part ∈ s.splitOn c, d ∈ part := by
  rw [← (List.intercalate_splitOn c : [c].intercalate (s.splitOn c) = s)] at h
  generalize s.splitOn c = parts at h ⊢
  induction parts with
  | nil => cases h
  | cons part parts ih =>
    cases parts with
    | nil =>
      rw [List.intercalate_singleton] at h
      exact .inr ⟨part, List.mem_cons_self, h⟩
    | cons next parts =>
      rw [List.intercalate_cons_cons, List.append_assoc, List.singleton_append, List.mem_append, List.mem_cons] at h
      rcases h with h | h | h
      · exact .inr ⟨part, List.mem_cons_self, h⟩
      · exact .inl h
      · exact (ih h).imp_right fun ⟨other, hother, hd⟩ => ⟨other, List.mem_cons_of_mem _ hother, hd⟩

/-- A line that separates is a marker. -/
theorem marker_of_separator (h : isSeparatorRow (tableCells trimmed) = true) : Marker (visible trimmed) := by
  have hcells : ∀ part ∈ (trimMatches '|' trimmed).splitOn '|', ∀ c ∈ trim part, c = ':' ∨ c = '-' := by
    intro part hpart c hc
    have hall := (decide_eq_true_iff.mp h).2
    rw [List.all_eq_true] at hall
    have hcell := hall (trim part) (List.mem_map_of_mem hpart)
    rw [decide_eq_true_iff] at hcell
    refine (mem_trimMatches hc).imp_right fun hmem => ?_
    simpa using List.all_eq_true.mp hcell.2 c hmem
  refine .rule fun c hc => ?_
  obtain ⟨hmem, hvisible⟩ := List.mem_filter.mp hc
  rcases mem_trimMatches (c := '|') hmem with rfl | hmem
  · decide
  · rcases mem_splitOn (c := '|') hmem with rfl | ⟨part, hpart, hmem⟩
    · decide
    · have htrim : c ∈ visible (trim part) := visible_trim part ▸ List.mem_filter.mpr ⟨hmem, hvisible⟩
      rcases hcells part hpart c (List.mem_of_mem_filter htrim) with rfl | rfl <;> decide

theorem Held.addRow (hheld : Held u (.Table header rows)) :
    Held (u ++ visible trimmed) (addRow (tableCells trimmed) header rows) := by
  obtain ⟨hempty, hless⟩ := hheld
  rw [Rgpd.addRow]
  split
  · rename_i hseparator
    have hall := hless.append (.marker (marker_of_separator hseparator))
    rw [List.append_nil] at hall
    exact ⟨hempty, hall⟩
  · split
    · rename_i hheader
      obtain rfl := hempty hheader
      rw [hheader, List.flatten_nil, List.append_nil] at hless
      refine ⟨fun _ => rfl, ?_⟩
      rw [List.flatten_nil, List.append_nil]
      exact hless.append (less_row trimmed)
    · rename_i hheader
      have hall := hless.append (less_row trimmed)
      rw [← List.flatMap_append, List.append_assoc] at hall
      refine ⟨fun h => absurd h hheader, ?_⟩
      rwa [List.flatten_append, List.flatten_singleton]

/-! ### The lines of a document -/

theorem visible_trimmed (raw : Text) : visible (trimStart (trimEnd raw)) = visible raw := by
  rw [trimStart, visible_trimStart, trimEnd, visible_trimEnd]

/-- One line more. -/
theorem Kept.addLine (h : Kept s page) (raw : Text) : Kept (s ++ visible raw) (addLine id page raw) := by
  rw [← visible_trimmed raw]
  rw [Rgpd.addLine]
  generalize htrimmed : trimStart (trimEnd raw) = trimmed
  dsimp only
  split
  · rename_i hblank
    rw [hblank, show visible [] = [] from rfl, List.append_nil]
    exact h.flush.1
  split
  · rename_i level text hheading
    obtain ⟨hlevel, hvisible⟩ := heading_spec hheading
    obtain ⟨⟨⟨before, held, rfl, hout, hheld⟩, hleveled⟩, hnone⟩ := h.flush
    rw [hnone] at hheld
    obtain rfl : held = [] := hheld
    refine ⟨⟨before ++ visible trimmed, [], by simp, ?_, by rw [hnone]; rfl⟩, ?_⟩
    · rw [List.flatMap_append, List.flatMap_singleton, hvisible]
      refine hout.append (.mark (.heading hlevel) ?_)
      rw [Piece.shown, id, Piece.texts, List.flatMap_singleton]
      exact less_shown text
    · exact List.forall_mem_append.mpr ⟨hleveled, List.forall_mem_singleton.mpr hlevel⟩
  split
  · rename_i item hitem
    have hvisible : visible trimmed = '-' :: visible (trim item) := by
      rw [stripPrefix_eq_some.mp hitem, visible_trim]
      rfl
    rw [hvisible]
    split
    · rename_i items hblock
      refine h.more fun held hheld => ?_
      rw [hblock] at hheld
      rw [show held = _ from hheld]
      exact List.flatMap_append.trans (congrArg _ (List.flatMap_singleton _ _)) |>.symm
    · exact h.start (List.flatMap_singleton _ _).symm
  split
  · split
    · rename_i header rows hblock
      exact h.more fun held hheld => Held.addRow (hblock ▸ hheld)
    · exact h.start (Held.addRow (u := []) ⟨fun _ => rfl, .nil⟩)
  · have hparagraph : Held (visible trimmed) (.Paragraph [trimmed]) := (List.flatMap_singleton _ _).symm
    split
    · rename_i items hblock
      split
      · rename_i last hindented hlast
        refine h.more fun held hheld => ?_
        obtain ⟨init, rfl⟩ := List.getLast?_eq_some_iff.mp hlast
        rw [hblock] at hheld
        show _ = List.flatMap _ _
        rw [show held = _ from hheld, List.dropLast_concat, List.flatMap_append, List.flatMap_append, List.flatMap_singleton,
          List.flatMap_singleton, visible_append, visible_blank (by decide), List.append_assoc, List.cons_append]
      · exact h.start hparagraph
    · rename_i lines hblock
      refine h.more fun held hheld => ?_
      rw [hblock] at hheld
      show _ = List.flatMap _ _
      rw [show held = _ from hheld, List.flatMap_append, List.flatMap_singleton]
    · exact h.start hparagraph

theorem Kept.lines (h : Kept s page) (lines : List Text) :
    Kept (s ++ lines.flatMap visible) (lines.foldl (Rgpd.addLine id) page) := by
  induction lines generalizing s page with
  | nil =>
    rw [List.flatMap_nil, List.append_nil]
    exact h
  | cons line lines ih =>
    rw [List.flatMap_cons, ← List.append_assoc, List.foldl_cons]
    exact ih (h.addLine line)

theorem visible_linesFrom (sofar md : Text) : (linesFrom sofar md).flatMap visible = visible (sofar ++ md) := by
  have hreturn : ∀ line : Text, visible (if line.getLast? = some '\r' then line.dropLast else line) = visible line := by
    intro line
    split
    · rename_i hlast
      obtain ⟨init, rfl⟩ := List.getLast?_eq_some_iff.mp hlast
      rw [List.dropLast_concat, visible_append]
      exact (List.append_nil _).symm
    · rfl
  induction md generalizing sofar with
  | nil =>
    rw [linesFrom, List.append_nil]
    split
    · rename_i hnil
      rw [hnil]
      rfl
    · exact List.flatMap_singleton _ _
  | cons c md ih =>
    rw [linesFrom]
    split
    · rename_i hc
      subst hc
      rw [List.flatMap_cons, hreturn, ih, List.nil_append, visible_append, visible_blank (by decide)]
    · rw [ih, List.append_assoc]
      rfl

/-- The pieces of a document are its characters, less its markers. -/
theorem pieces_kept (md : Text) :
    Less (visible md) ((pieces md).flatMap Piece.shown) ∧ ∀ p ∈ pieces md, p.Leveled := by
  have hstart : Kept [] ⟨.None, []⟩ := ⟨⟨[], [], rfl, .nil, rfl⟩, by simp⟩
  obtain ⟨⟨⟨before, held, hsplit, hout, hheld⟩, hleveled⟩, hnone⟩ := (hstart.lines (linesFrom [] md)).flush
  rw [hnone] at hheld
  obtain rfl : held = [] := hheld
  rw [List.nil_append, visible_linesFrom, List.nil_append, List.append_nil] at hsplit
  rw [hsplit]
  exact ⟨hout, hleveled⟩

theorem plainElement_plain (name : Text) (inner : Markup.Forest) : (plainElement name inner).plain = inner.plain :=
  List.append_nil _

theorem visible_flatMap {α : Type} (f : α → Text) (l : List α) : visible (l.flatMap f) = l.flatMap fun x => visible (f x) :=
  List.filter_flatMap ..

theorem visible_break (s : Text) : visible (s ++ (textForest ['\n']).plain) = visible s := by
  rw [visible_append]
  exact List.append_nil _

theorem wrapped_plain (name : Text) (attributes : List (Text × Text)) (table : Text) (head body : Markup.Forest) :
    visible (Markup.Forest.element name attributes (plainElement table
      (Markup.Forest.concat [textForest ['\n'], head, textForest ['\n'], body, textForest ['\n']])) .nil).plain =
      visible head.plain ++ visible body.plain := by
  have hbreak : visible (textForest ['\n']).plain = [] := by decide
  rw [Markup.Forest.plain, Markup.Forest.plain, List.append_nil, plainElement_plain, Markup.plain_concat, visible_flatMap,
    List.flatMap_cons, List.flatMap_cons, List.flatMap_cons, List.flatMap_cons, List.flatMap_cons, List.flatMap_nil, hbreak,
    List.nil_append, List.nil_append, List.nil_append, List.append_nil]

theorem Piece.forest_plain (p : Piece) : visible p.forest.plain = p.shown := by
  cases p with
  | heading level text =>
    rw [Piece.forest, plainElement_plain, inlineForest_plain]
    exact (List.flatMap_singleton _ _).symm
  | block b =>
    cases b with
    | None => rfl
    | Paragraph lines =>
      rw [Piece.forest, plainElement_plain, inlineForest_plain]
      exact (List.flatMap_singleton _ _).symm
    | List items =>
      have hitem : ∀ i, visible ((plainElement "li".toList (inlineForest i)).append (textForest ['\n'])).plain = Rgpd.shown i := by
        intro i
        rw [Markup.plain_append, visible_break, plainElement_plain, inlineForest_plain]
      rw [Piece.forest, listForest, plainElement_plain, Markup.plain_concat, List.flatMap_cons, visible_append,
        List.flatMap_map, visible_flatMap, List.flatMap_congr fun i _ => hitem i]
      rfl
    | Table header rows =>
      have hrow : ∀ row, visible (rowForest row).plain = row.flatMap Rgpd.shown := by
        intro row
        rw [rowForest, Markup.plain_append, visible_break, plainElement_plain, Markup.plain_concat, List.flatMap_map,
          visible_flatMap]
        exact List.flatMap_congr fun c _ => by rw [plainElement_plain, inlineForest_plain]
      have hcell : ∀ c, visible (headerCell c).plain = Rgpd.shown c := by
        intro c
        rw [← inlineForest_plain]
        exact congrArg visible (List.append_nil _)
      have hhead : visible (Markup.Forest.concat (header.map headerCell)).plain = header.flatMap Rgpd.shown := by
        rw [Markup.plain_concat, List.flatMap_map, visible_flatMap]
        exact List.flatMap_congr fun c _ => hcell c
      have hbody : visible (Markup.Forest.concat (textForest ['\n'] :: rows.map rowForest)).plain =
          rows.flatMap fun row => row.flatMap Rgpd.shown := by
        rw [Markup.plain_concat, List.flatMap_cons, visible_append, List.flatMap_map, visible_flatMap,
          List.flatMap_congr fun row _ => hrow row]
        rfl
      rw [Piece.forest, tableForest, wrapped_plain, plainElement_plain, plainElement_plain, plainElement_plain, hhead, hbody,
        Piece.shown, Piece.texts, List.flatMap_append, ← List.flatMap_id, List.flatMap_assoc]
      rfl

theorem documentForest_plain (ps : List Piece) : visible (documentForest ps).plain = ps.flatMap Piece.shown := by
  induction ps with
  | nil => rfl
  | cons p ps ih =>
    cases ps with
    | nil => rw [documentForest, List.flatMap_singleton, p.forest_plain]
    | cons q ps =>
      rw [documentForest, Markup.plain_append, visible_append, p.forest_plain, Markup.Forest.plain, visible_append, ih]
      rfl

/-! ### Where a link leads -/

/-- A path that starts as a host does: a slash, then a slash or a backslash, tabs and line breaks being left out as the
reader of a URL leaves them out. -/
def Elsewhere (url : Text) : Prop := (url.filter (· ∉ ['\t', '\n', '\r'])).take 2 ∈ [['/', '/'], ['/', '\\']]

/-- A URL that names its scheme, or a path or a fragment of this site. -/
def Allowed (url : Text) : Prop :=
  "https://".toList <+: url ∨ "http://".toList <+: url ∨ "mailto:".toList <+: url ∨
    (url.head? = some '/' ∧ ¬Elsewhere url) ∨ url.head? = some '#'

instance (url : Text) : Decidable (Elsewhere url) := inferInstanceAs (Decidable (_ ∈ _))

theorem not_elsewhere (hhead : url.head? = some c) (hc : c ∉ ['\t', '\n', '\r', '/']) : ¬Elsewhere url := by
  obtain ⟨rest, rfl⟩ : ∃ rest, url = c :: rest := ⟨url.tail, List.eq_cons_of_mem_head? hhead⟩
  intro h
  have hkept : c ∉ ['\t', '\n', '\r'] := fun hmem => hc (List.mem_append_left ['/'] hmem)
  rw [Elsewhere, List.filter_cons_of_pos (by exact decide_eq_true hkept), List.take_succ_cons, List.mem_cons, List.mem_singleton] at h
  refine hc (List.mem_append_right ['\t', '\n', '\r'] (List.mem_singleton.mpr ?_))
  rcases h with h | h <;> exact (List.cons.inj h).1

theorem head_of_start (h : c :: needle <+: url) : url.head? = some c := by
  obtain ⟨t, rfl⟩ := h
  rfl

theorem allowed_iff : Allowed url ↔ isSafeUrl url = true ∧ ¬Elsewhere url := by
  have hscheme : ∀ scheme ∈ ["https://".toList, "http://".toList, "mailto:".toList], scheme <+: url → ¬Elsewhere url := by
    simp only [List.mem_cons, List.not_mem_nil, or_false]
    rintro scheme (rfl | rfl | rfl) hstarts
    · exact not_elsewhere (head_of_start hstarts) (by decide)
    · exact not_elsewhere (head_of_start hstarts) (by decide)
    · exact not_elsewhere (head_of_start hstarts) (by decide)
  rw [Allowed, isSafeUrl]
  simp only [Bool.or_eq_true, List.isPrefixOf_iff_prefix, decide_eq_true_iff]
  constructor
  · rintro (h | h | h | ⟨h, hnot⟩ | h)
    · exact ⟨.inl (.inl (.inl (.inl h))), hscheme _ (by decide) h⟩
    · exact ⟨.inl (.inl (.inl (.inr h))), hscheme _ (by decide) h⟩
    · exact ⟨.inl (.inl (.inr h)), hscheme _ (by decide) h⟩
    · exact ⟨.inl (.inr h), hnot⟩
    · exact ⟨.inr h, not_elsewhere h (by decide)⟩
  · rintro ⟨(((h | h) | h) | h) | h, hnot⟩
    · exact .inl h
    · exact .inr (.inl h)
    · exact .inr (.inr (.inl h))
    · exact .inr (.inr (.inr (.inl ⟨h, hnot⟩)))
    · exact .inr (.inr (.inr (.inr h)))

/-- A character that is not a null one, nor what replaces it. -/
def Whole (d : Char) : Prop := d ≠ '\x00' ∧ d ≠ '\uFFFD'

instance (d : Char) : Decidable (Whole d) := inferInstanceAs (Decidable (_ ∧ _))

theorem scrub_eq_iff (hd : Whole d) : Markup.scrub c = d ↔ c = d := by
  rw [Markup.scrub]
  split
  · rename_i hc
    exact ⟨fun h => absurd h.symm hd.2, fun h => absurd (h.symm.trans hc) hd.1⟩
  · exact Iff.rfl

theorem map_scrub_eq_iff (h : ∀ d ∈ u, Whole d) : s.map Markup.scrub = u ↔ s = u := by
  induction s generalizing u with
  | nil => exact Iff.rfl
  | cons c s ih =>
    cases u with
    | nil => simp
    | cons d u =>
      obtain ⟨hd, hu⟩ := List.forall_mem_cons.mp h
      rw [List.map_cons, List.cons.injEq, List.cons.injEq, scrub_eq_iff hd, ih hu]

theorem isPrefixOf_scrub (h : ∀ d ∈ needle, Whole d) (s : Text) :
    needle.isPrefixOf (s.map Markup.scrub) = needle.isPrefixOf s := by
  induction needle generalizing s with
  | nil => rw [List.isPrefixOf, List.isPrefixOf]
  | cons d needle ih =>
    obtain ⟨hd, hneedle⟩ := List.forall_mem_cons.mp h
    cases s with
    | nil => rfl
    | cons c s =>
      have hhead : (d == Markup.scrub c) = (d == c) := by
        rw [Bool.eq_iff_iff, beq_iff_eq, beq_iff_eq, eq_comm, scrub_eq_iff hd, eq_comm]
      rw [List.map_cons, List.isPrefixOf, List.isPrefixOf, hhead, ih hneedle]

theorem head_scrub (hd : Whole d) (s : Text) : (s.map Markup.scrub).head? = some d ↔ s.head? = some d := by
  cases s with
  | nil => exact Iff.rfl
  | cons c s => rw [List.map_cons, List.head?_cons, List.head?_cons, Option.some.injEq, Option.some.injEq, scrub_eq_iff hd]

theorem isSafeUrl_scrub (url : Text) : isSafeUrl (url.map Markup.scrub) = isSafeUrl url := by
  rw [isSafeUrl, isSafeUrl, isPrefixOf_scrub (by decide), isPrefixOf_scrub (by decide), isPrefixOf_scrub (by decide)]
  simp only [head_scrub (d := '/') (by decide), head_scrub (d := '#') (by decide)]

theorem elsewhere_scrub (url : Text) : Elsewhere (url.map Markup.scrub) ↔ Elsewhere url := by
  have hblank : (fun c => decide (c ∉ ['\t', '\n', '\r'])) ∘ Markup.scrub = fun c => decide (c ∉ ['\t', '\n', '\r']) := by
    funext c
    simp only [Function.comp_apply, List.mem_cons, List.not_mem_nil, or_false, scrub_eq_iff (d := '\t') (by decide),
      scrub_eq_iff (d := '\n') (by decide), scrub_eq_iff (d := '\r') (by decide)]
  rw [Elsewhere, List.filter_map, hblank, ← List.map_take, List.mem_cons, List.mem_singleton, map_scrub_eq_iff (by decide),
    map_scrub_eq_iff (by decide), Elsewhere, List.mem_cons, List.mem_singleton]

/-! ### What is rendered -/

def elements : List Text := "a".toList :: fixedElements.map Prod.fst

/-- What a document should be rendered as: elements of its own, closed in their order, whose links lead where they say,
and its own characters. -/
structure Rendering (md : Text) (tokens : List Markup.Token) : Prop where
  balanced : Markup.Balanced [] tokens
  elements : ∀ tag, .tag tag ∈ tokens → tag.name ∈ elements
  links : ∀ tag, .tag tag ∈ tokens → tag.closing = false → tag.name = "a".toList →
    ∃ url, tag.attributes = [("href".toList, url)] ∧ Allowed url
  text : Less (visible md) (visible (Markup.textOf tokens))

theorem wellformed_document (md : Text) : (documentForest (pieces md)).Each Markup.Wellformed := by
  have hfixed : ∀ e ∈ fixedElements, Markup.Wellformed e.1 e.2 := by
    have hnames : ∀ e ∈ fixedElements, e.1 ≠ [] ∧ (∀ c ∈ e.1.head?, 'a' ≤ c ∧ c ≤ 'z') ∧
        (∀ c ∈ e.1, ('a' ≤ c ∧ c ≤ 'z') ∨ ('0' ≤ c ∧ c ≤ '9')) ∧
        ∀ a ∈ e.2, a.1 ≠ [] ∧ ∀ c ∈ a.1, 'a' ≤ c ∧ c ≤ 'z' := by decide
    intro e he
    obtain ⟨hne, hhead, htail, hattributes⟩ := hnames e he
    exact ⟨⟨hne, hhead, htail⟩, hattributes⟩
  refine (each_document hfixed (pieces_kept md).2).mpr fun url _ => ⟨⟨by decide, by decide, by decide⟩, fun a ha => ?_⟩
  rw [List.mem_singleton.mp ha]
  show Markup.Letters "href".toList
  exact ⟨by decide, by decide⟩

/-- What holds of the links of the tokens holds of those of the document. -/
theorem links_allowed_iff (md : Text) :
    (∀ tag, .tag tag ∈ (documentForest (pieces md)).tokens → tag.closing = false → tag.name = "a".toList →
      ∃ url, tag.attributes = [("href".toList, url)] ∧ Allowed url) ↔ ∀ url ∈ links md, ¬Elsewhere url := by
  have hnot : ∀ e ∈ fixedElements, e.1 ≠ "a".toList := by decide
  rw [Markup.opening_iff (Q := fun tag => tag.name = "a".toList → ∃ url, tag.attributes = [("href".toList, url)] ∧ Allowed url),
    each_document (fun e he h => absurd h (hnot e he)) (pieces_kept md).2]
  refine forall₂_congr fun url hurl => ?_
  have hsafe : isSafeUrl url = true := by
    obtain ⟨text, -, hlink⟩ := List.mem_flatMap.mp hurl
    obtain ⟨span, hspan, heq⟩ := List.mem_filterMap.mp hlink
    cases span with
    | link label url' =>
      obtain rfl : url' = url := Option.some.inj heq
      exact (url_of_mem hspan).1
    | _ => cases heq
  have hallowed : Allowed (url.map Markup.scrub) ↔ ¬Elsewhere url := by
    rw [allowed_iff, isSafeUrl_scrub, elsewhere_scrub, and_iff_right hsafe]
  constructor
  · intro h
    obtain ⟨url', heq, hurl'⟩ := h rfl
    simp only [List.map_cons, List.map_nil, List.cons.injEq, Prod.mk.injEq, true_and, and_true] at heq
    exact hallowed.mp (heq ▸ hurl')
  · exact fun h _ => ⟨_, rfl, hallowed.mpr h⟩

theorem rendering_of_links {md : Text} (h : ∀ url ∈ links md, ¬Elsewhere url) :
    ∃ tokens, Markup.tokenize (renderMarkdown md) = some tokens ∧ Rendering md tokens := by
  obtain ⟨hless, hleveled⟩ := pieces_kept md
  have hnames : (documentForest (pieces md)).Each fun name _ => name ∈ elements :=
    (each_document (fun e he => List.mem_cons_of_mem _ (List.mem_map_of_mem he)) hleveled).mpr fun _ _ => List.mem_cons_self
  refine ⟨_, by rw [renderMarkdown_eq]; exact Markup.tokenize_write (wellformed_document md), ?_, Markup.names_of_each hnames,
    (links_allowed_iff md).mpr h, ?_⟩
  · rw [← List.append_nil (documentForest (pieces md)).tokens, Markup.balanced_tokens]
    rfl
  · rwa [Markup.textOf_tokens, documentForest_plain]

theorem links_of_rendering {md : Text} {tokens : List Markup.Token}
    (htokens : Markup.tokenize (renderMarkdown md) = some tokens) (h : Rendering md tokens) :
    ∀ url ∈ links md, ¬Elsewhere url := by
  rw [renderMarkdown_eq, Markup.tokenize_write (wellformed_document md)] at htokens
  obtain rfl := Option.some.inj htokens
  exact (links_allowed_iff md).mp h.links

/-- A document is rendered as its own markup and its own text, and its links lead to this site or say where else, exactly
where no link of it has a path that starts as a host does. -/
theorem rendered_iff (md : Text) :
    (∃ tokens, Markup.tokenize (renderMarkdown md) = some tokens ∧ Rendering md tokens) ↔
      ∀ url ∈ links md, ¬Elsewhere url :=
  ⟨fun ⟨_, htokens, h⟩ => links_of_rendering htokens h, fun h => rendering_of_links h⟩

/-- The page of another host, read as a path. -/
def otherHost : Text := "[ici](//example.com)".toList

theorem rendered_elsewhere :
    ¬∃ tokens, Markup.tokenize (renderMarkdown otherHost) = some tokens ∧ Rendering otherHost tokens := by
  rintro ⟨tokens, htokens, h⟩
  have hpieces : pieces otherHost = [.block (.Paragraph [otherHost])] := rfl
  have hturn : turn '[' "ici](//example.com)".toList = (.link "ici".toList "//example.com".toList, []) := by decide
  have hspans : spans otherHost = [.link "ici".toList "//example.com".toList] := by
    rw [show otherHost = '[' :: "ici](//example.com)".toList from rfl, spans, hturn, spans]
  have hlink : "//example.com".toList ∈ links otherHost := by
    rw [links, hpieces]
    show _ ∈ linksOf otherHost ++ []
    rw [linksOf, hspans]
    exact List.mem_cons_self
  exact links_of_rendering htokens h _ hlink (by decide)

end Home.Rgpd
